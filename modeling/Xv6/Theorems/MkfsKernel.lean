import Mathlib.Data.List.TakeWhile
import Xv6.Theorems.MkfsMain

/-! The kernel finds on the image of `mkfs` the files that were given to it. -/

namespace Xv6
open Function (update update_eq_self update_of_ne update_self)
open Outcome (ok_bind pure_eq)
open Bytes Ownership

namespace Fs
variable {fs : Fs} {i : InodeIdx}

/-- The blocks of the disk are in order, whatever the sizes of the files. -/
structure Sound (fs : Fs) : Prop where
  super : fs.Super
  owned : fs.img.Owned fs.sb ∅

theorem Sound.working (s : fs.Sound) (hdev : (fs.inode i).dev = ROOTDEV) (hinum : (fs.inode i).inum < fs.sb.ninodes)
    (htype : (fs.inode i).type ≠ 0) (hsync : fs.img.ino (fs.inode i).inum = (fs.inode i).toDinode) : fs.Working i := by
  refine ⟨s.super, hdev, hinum, htype, ?_⟩
  rw [imgAt, Img.setIno, ← hsync, update_eq_self]
  exact s.owned

theorem imgAt_of_synced (hsync : fs.img.ino (fs.inode i).inum = (fs.inode i).toDinode) : fs.imgAt i = fs.img := by
  rw [imgAt, Img.setIno, ← hsync, update_eq_self]

end Fs

namespace Mkfs
attribute [local irreducible] format main

variable {m : Mkfs} {files : List HostFile} {f : HostFile}

/-- The lists of files that `mkfs` is made for. A name is a C string. -/
structure Proper (files : List HostFile) : Prop where
  slash : ∀ f ∈ files, SLASH ∉ f.name
  nul : ∀ f ∈ files, (0 : UInt8) ∉ f.name
  name : ∀ f ∈ files, fsName f.name ≠ [] ∧ fsName f.name ≠ [46] ∧ fsName f.name ≠ [46, 46] ∧ (fsName f.name).length ≤ DIRSIZ
  distinct : (files.map fun f => fsName f.name).Nodup
  size : ∀ f ∈ files, f.data.length ≤ MAXFILE * BSIZE
  inodes : files.length + 2 ≤ NINODES
  blocks : total files ≤ FSSIZE

theorem mem_of_mem_fsName {name : List UInt8} {c : UInt8} (h : c ∈ fsName name) : c ∈ name := by
  unfold fsName at h
  split at h
  · exact List.mem_of_mem_tail h
  · exact h

theorem Proper.fit (hp : Proper files) : ¬Unfit files := by
  rintro (⟨f, hf, h | h⟩ | h | h)
  · exact hp.slash f hf h
  · exact absurd (hp.size f hf) (not_le.mpr h)
  · have := hp.inodes
    simp only [Fs.DIRENT, DIRSIZ, MAXFILE, NINDIRECT, NDIRECT, BSIZE, NINODES] at *
    omega
  · exact absurd hp.blocks (not_le.mpr h)

/-! ### The disk -/

theorem Holds.sound (h : Holds NINODES m files) : (bare NINODES (rounded NINODES m)).Sound := by
  have hn : Fits NINODES := by decide
  have hi := (h.isFile hn).1
  have himg : (bare NINODES (rounded NINODES m)).img = (bare NINODES m).img.setIno ROOTINO (roundedRoot NINODES m) :=
    img_putInode hn hi _
  have hptr : ∀ p, (bare NINODES (rounded NINODES m)).img.ptr p = (bare NINODES m).img.ptr p := fun p => by
    rw [himg]
    exact Img.ptr_setIno_same (g := (bare NINODES m).img) (i := ROOTINO) (d := roundedRoot NINODES m) rfl rfl p
  refine ⟨⟨sbWith_ok hn, ?_, le_rfl⟩, ?_⟩
  · have hblk : (bare NINODES (rounded NINODES m)).blk 1 = encodeSb (sbWith NINODES) := by
      change update (update (rounded NINODES m).blk 1 (encodeSb (sbWith NINODES))) sb.bmapstart
        (bitmap (rounded NINODES m).freeblock) 1 = _
      rw [update_of_ne (by decide), update_self]
    rw [hblk]
    exact decode_sbWith hn
  · unfold Img.Owned
    rw [funext hptr, himg]
    exact h.wf.owned

theorem Holds.bitmap_exact (h : Holds NINODES m files) {fs : Fs} (hfs : fs = bare NINODES (rounded NINODES m)) (b : Nat)
    (hb : b < fs.sb.size) :
    (fs.blk (fs.sb.bblock b)).bit (b % BPB) = true ↔ b < fs.sb.nmeta ∨ ∃ p, fs.img.ptr p = b := by
  have howned : fs.img.Owned fs.sb ∅ := by
    rw [hfs]
    exact h.sound.owned
  rw [← Fs.used_img hb, howned.used_iff b hb]
  have hpos := fs.sb.nmeta_pos
  constructor
  · rintro (hmeta | ⟨p, hp, -⟩ | hmem)
    · exact Or.inl hmeta
    · exact Or.inr ⟨p, hp⟩
    · exact hmem.elim
  · rintro (hmeta | ⟨p, hp⟩)
    · exact Or.inl hmeta
    · by_cases hb0 : b = 0
      · exact Or.inl (by omega)
      · exact Or.inr (Or.inl ⟨p, hp, hb0⟩)

/-! ### Looking up a file -/

theorem skipelem_name {name : List UInt8} (hne : name ≠ []) (hslash : SLASH ∉ name) (hlen : name.length ≤ DIRSIZ) :
    Fs.skipelem (SLASH :: name) = some (name, []) := by
  have hdrop : (SLASH :: name).dropWhile (fun c => c = SLASH) = name := by
    rw [List.dropWhile_cons_of_pos (by simp)]
    cases name with
    | nil => rfl
    | cons c cs =>
      have hc : c ≠ SLASH := fun h => hslash (h ▸ List.mem_cons_self)
      exact List.dropWhile_cons_of_neg (by simpa using hc)
  have hall : ∀ c ∈ name, decide (c ≠ SLASH) = true := fun c hc => decide_eq_true fun h => hslash (h ▸ hc)
  have htake : name.takeWhile (fun c => c ≠ SLASH) = name := List.takeWhile_eq_self_iff.mpr hall
  have hrest : name.dropWhile (fun c => c ≠ SLASH) = [] := List.dropWhile_eq_nil_iff.mpr hall
  unfold Fs.skipelem
  dsimp only
  rw [hdrop, if_neg hne, htake, hrest, List.take_of_length_le hlen]
  rfl

theorem nameOf_entries (hp : Proper files) {s : Nat} (hs : s < files.length + 2) :
    nameOf (Fs.direntName ((entries files).getD s [])) = ([46] :: [46, 46] :: files.map fun f => fsName f.name).getD s [] := by
  have hdirent : ∀ {name : List UInt8} (inum : Nat), name.length ≤ DIRSIZ → (0 : UInt8) ∉ name →
      nameOf (Fs.direntName (dirent name inum)) = name := fun inum hlen hnul =>
    (Fs.nameOf_encodeDirent _ inum).trans (nameOf_getD hlen hnul)
  match s, hs with
  | 0, _ => exact hdirent _ (by decide) (by decide)
  | 1, _ => exact hdirent _ (by decide) (by decide)
  | s + 2, hs =>
    have hlt : s < files.length := by omega
    have hmem : files[s] ∈ files := List.getElem_mem hlt
    have hget : (entries files).getD (s + 2) [] = dirent (fsName files[s].name) (s + 2) := by
      unfold entries
      rw [List.getD_cons_succ, List.getD_cons_succ, List.getD_eq_getElem _ _ (by simpa using hlt)]
      simp
    rw [hget, hdirent _ (hp.name _ hmem).2.2.2 fun h => hp.nul _ hmem (mem_of_mem_fsName h), List.getD_cons_succ,
      List.getD_cons_succ, List.getD_eq_getElem _ _ (by simpa using hlt), List.getElem_map]

theorem Proper.first (hp : Proper files) {k : Nat} (hk : k < files.length) {s : Nat} (hs : s < k + 2) :
    ([46] :: [46, 46] :: files.map fun f => fsName f.name).getD s [] ≠ fsName (files.get ⟨k, hk⟩).name := by
  have hname := hp.name _ (List.getElem_mem hk)
  match s, hs with
  | 0, _ => exact Ne.symm hname.2.1
  | 1, _ => exact Ne.symm hname.2.2.1
  | s + 2, hs =>
    have hlt : s < files.length := by omega
    rw [List.getD_cons_succ, List.getD_cons_succ, List.getD_eq_getElem _ _ (by simpa using hlt), List.getElem_map]
    intro heq
    have hinj := List.nodup_iff_injective_get.mp hp.distinct
    have hsk : (⟨s, by simpa using hlt⟩ : Fin (files.map fun f => fsName f.name).length) = ⟨k, by simpa using hk⟩ :=
      hinj (by simpa using heq)
    have : s = k := congrArg Fin.val hsk
    omega

section Lookup
variable {fs₀ : Fs} {k : Nat} (h : Holds NINODES m files) (hfs : fs₀ = bare NINODES (rounded NINODES m))
include h hfs

def rootSlot (fs₀ : Fs) : Inode := { toDinode := fs₀.img.ino ROOTINO, dev := ROOTDEV, inum := ROOTINO, ref := 1, busy := true, valid := true }

def newSlot (d : Dinode) (inum : Nat) : Inode := { toDinode := d, dev := ROOTDEV, inum := inum, ref := 1, busy := false, valid := false }

theorem Holds.readable (hlen : files.length ≤ 205)
    (i : InodeIdx) : (fs₀.setInode i (rootSlot fs₀)).Readable i (Fs.DIRENT * (files.length + 2)) := by
  have hn : Fits NINODES := by decide
  have hf := h.final hn
  obtain ⟨-, htype, hdev⟩ := h.isFile hn
  have hold := h.wf.noHole ROOTINO htype hdev
  have hsize := h.size_root hf hlen
  have hsound := h.sound
  rw [← hfs] at hf hsize hsound
  have hslot : (fs₀.setInode i (rootSlot fs₀)).inode i = rootSlot fs₀ := update_self ..
  have hsound' : (fs₀.setInode i (rootSlot fs₀)).Sound := ⟨⟨hsound.super.ok, hsound.super.block, hsound.super.disk⟩, hsound.owned⟩
  have htype' : (fs₀.img.ino ROOTINO).type = ((bare NINODES m).img.ino ROOTINO).type := by
    rw [hf.root]
    rfl
  have hsync : (fs₀.setInode i (rootSlot fs₀)).img.ino ((fs₀.setInode i (rootSlot fs₀)).inode i).inum =
      ((fs₀.setInode i (rootSlot fs₀)).inode i).toDinode := by
    rw [hslot]
    rfl
  have hinum : ((fs₀.setInode i (rootSlot fs₀)).inode i).inum < (fs₀.setInode i (rootSlot fs₀)).sb.ninodes := by
    rw [hslot, hfs]
    exact show 1 < 200 by decide
  refine ⟨hsound'.working (by rw [hslot]; rfl) hinum (by rw [hslot]; exact htype'.symm ▸ htype) hsync, ?_, ?_, ?_, fun bn hbn => ?_⟩
  · rw [hslot]
    exact htype'.symm ▸ hdev
  · rw [hslot]
    change _ ≤ (fs₀.img.ino ROOTINO).size.toNat
    rw [hsize]
    simp only [Fs.DIRENT, DIRSIZ, BSIZE]
    omega
  · simp only [Fs.DIRENT, DIRSIZ, MAXFILE, NINDIRECT, NDIRECT, BSIZE]
    omega
  · rw [Fs.imgAt_of_synced hsync, hslot]
    change fs₀.img.ptr (blockPlace ROOTINO bn) ≠ 0
    rw [hf.ptr _ (by simp)]
    exact hold.alloc bn (by rw [h.size]; exact hbn)

theorem Holds.dirlookup (devsw : DevSw) (hp : Proper files) (hk : k < files.length) (i : InodeIdx) :
    (fs₀.setInode i (rootSlot fs₀)).dirlookup devsw i (fun j => (fsName (files.get ⟨k, hk⟩).name).getD j 0) =
      (fs₀.setInode i (rootSlot fs₀)).found i (k + 2) (k + 2) := by
  have hlen := hp.inodes
  simp only [NINODES] at hlen
  have hf := h.final (by decide)
  rw [← hfs] at hf
  have hr := h.readable hfs (by omega) i
  have hslot : (fs₀.setInode i (rootSlot fs₀)).inode i = rootSlot fs₀ := update_self ..
  have himg : (fs₀.setInode i (rootSlot fs₀)).imgAt i = fs₀.img := Fs.imgAt_of_synced (by rw [hslot]; rfl)
  have hmem : files.get ⟨k, hk⟩ ∈ files := List.getElem_mem hk
  have hname : nameOf (fun j => (fsName (files.get ⟨k, hk⟩).name).getD j 0) = fsName (files.get ⟨k, hk⟩).name :=
    nameOf_getD (hp.name _ hmem).2.2.2 fun h => hp.nul _ hmem (mem_of_mem_fsName h)
  have hentry : ∀ s, s < files.length + 2 → Fs.decodeDirent (fs₀.img.direntAt ROOTINO s) =
      some (([46] :: [46, 46] :: files.map fun f => fsName f.name).getD s [], max s 1) := fun s hs => by
    rw [h.direntAt hf hs, Fs.decodeDirent, direntInum_entries hs (by omega), nameOf_entries hp hs, if_neg (by omega)]
  have hget : ([46] :: [46, 46] :: files.map fun f => fsName f.name).getD (k + 2) [] = fsName (files.get ⟨k, hk⟩).name := by
    rw [List.getD_cons_succ, List.getD_cons_succ, List.getD_eq_getElem _ _ (by simpa using hk), List.getElem_map]
    rfl
  have htype : ((fs₀.setInode i (rootSlot fs₀)).inode i).type.toNat = T_DIR := by
    rw [hslot]
    change (fs₀.img.ino ROOTINO).type.toNat = T_DIR
    rw [hf.root]
    exact h.root.1
  refine hr.dirlookup_hit htype (Nat.mul_le_mul_left _ (by omega)) (fun s hs => ?_) ?_
  · rw [himg, hslot, hname]
    change (Fs.decodeDirent (fs₀.img.direntAt ROOTINO s)).map Prod.fst ≠ _
    rw [hentry s (by omega), Option.map_some, Ne, Option.some.injEq]
    exact hp.first hk hs
  · rw [himg, hslot, hname]
    change Fs.decodeDirent (fs₀.img.direntAt ROOTINO (k + 2)) = _
    rw [hentry _ (by omega), hget, max_eq_left (by omega)]

theorem Holds.rootSlot :
    (rootSlot fs₀).type.toNat = T_DIR ∧ (Mkfs.rootSlot fs₀).nlink = 1 := by
  have hf := h.final (by decide)
  rw [← hfs] at hf
  change (fs₀.img.ino ROOTINO).type.toNat = T_DIR ∧ (fs₀.img.ino ROOTINO).nlink = 1
  rw [hf.root]
  exact h.root

theorem Holds.lockRoot :
    ∃ i fs₁, fs₀.iget ROOTDEV ROOTINO = .ok (i, fs₁) ∧ fs₁.ilock i = .ok (fs₀.setInode i (Mkfs.rootSlot fs₀)) := by
  have hsound := h.sound
  rw [← hfs] at hsound
  have hfree : ∀ j, fs₀.inode j = noInode := fun j => by
    rw [hfs]
    rfl
  have htype : (fs₀.img.ino ROOTINO).type ≠ 0 := fun hz => by
    have hdir : (fs₀.img.ino ROOTINO).type.toNat = T_DIR := (h.rootSlot hfs).1
    rw [hz] at hdir
    exact absurd hdir (by decide)
  obtain ⟨⟨i, fs₁⟩, hget, hgot⟩ := Fs.iget_ok fs₀ ROOTDEV ROOTINO ⟨0, by rw [hfree]; rfl⟩
  cases hgot with
  | hit _ hpos => exact absurd hpos (by rw [hfree]; exact Nat.lt_irrefl 0)
  | fresh =>
    refine ⟨i, _, hget, ?_⟩
    rw [hfree]
    have hsound₁ : (fs₀.setInode i (newSlot noInode.toDinode ROOTINO)).Sound :=
      ⟨⟨hsound.super.ok, hsound.super.block, hsound.super.disk⟩, hsound.owned⟩
    have hlock := hsound₁.super.ilock (Fs.inode_setInode_self ..) Nat.one_pos rfl rfl rfl
      (show ROOTINO < fs₀.sb.ninodes by rw [hfs]; exact show 1 < 200 by decide) htype
    rw [Fs.setInode_setInode] at hlock
    exact hlock

theorem Holds.putRoot {i j : InodeIdx} (hij : j ≠ i)
    (ip : Inode) : ∃ fs₁, ((fs₀.setInode i (Mkfs.rootSlot fs₀)).setInode j ip).iunlockput i = .ok fs₁ ∧
      fs₁.blk = fs₀.blk ∧ fs₁.sb = fs₀.sb ∧ fs₁.disksize = fs₀.disksize ∧ fs₁.inode j = ip := by
  have hslot : ((fs₀.setInode i (Mkfs.rootSlot fs₀)).setInode j ip).inode i = Mkfs.rootSlot fs₀ := by
    rw [Fs.setInode, Fs.setInode]
    dsimp only
    rw [update_of_ne (Ne.symm hij), update_self]
  have hnlink : ¬(Mkfs.rootSlot fs₀).nlink = 0 := by
    rw [(h.rootSlot hfs).2]
    decide
  generalize hfs₃ : (fs₀.setInode i (Mkfs.rootSlot fs₀)).setInode j ip = fs₃ at hslot
  have hunlock : fs₃.iunlock i = .ok (fs₃.setInode i { Mkfs.rootSlot fs₀ with busy := false }) := by
    rw [Fs.iunlock, hslot]
    exact if_neg (by rintro (h | h) <;> exact absurd h (by simp [Mkfs.rootSlot]))
  have hput : fs₃.iunlockput i = .ok (fs₃.setInode i { Mkfs.rootSlot fs₀ with busy := false, ref := 0 }) := by
    rw [Fs.iunlockput, hunlock, ok_bind, Fs.iput, Fs.inode_setInode_self, if_neg fun h => hnlink h.2.2]
    simp only [pure_eq, ok_bind, Fs.inode_setInode_self, Fs.setInode_setInode]
    rfl
  subst hfs₃
  refine ⟨_, hput, rfl, rfl, rfl, ?_⟩
  rw [Fs.setInode]
  dsimp only
  rw [update_of_ne hij]
  exact Fs.inode_setInode_self ..

theorem Holds.namei (devsw : DevSw) (cwd : Option InodeIdx) (hp : Proper files) (hk : k < files.length) :
    ∃ i fs₁ d, fs₀.namei devsw cwd (SLASH :: fsName (files.get ⟨k, hk⟩).name) = .ok (some i, fs₁) ∧
      fs₁.blk = fs₀.blk ∧ fs₁.sb = fs₀.sb ∧ fs₁.disksize = fs₀.disksize ∧ fs₁.inode i = newSlot d (k + 2) := by
  have hmem : files.get ⟨k, hk⟩ ∈ files := List.getElem_mem hk
  have hname := hp.name _ hmem
  have hskip := skipelem_name hname.1 (fun h => hp.slash _ hmem (mem_of_mem_fsName h)) hname.2.2.2
  have hlook := h.dirlookup hfs devsw hp hk
  generalize fsName (files.get ⟨k, hk⟩).name = name at hskip hlook ⊢
  obtain ⟨i, fs₁, hget, hlock⟩ := h.lockRoot hfs
  have hslot : (fs₀.setInode i (Mkfs.rootSlot fs₀)).inode i = Mkfs.rootSlot fs₀ := update_self ..
  have hfree : ∀ j, j ≠ i → (fs₀.setInode i (Mkfs.rootSlot fs₀)).inode j = noInode := fun j hj => by
    rw [Fs.setInode]
    dsimp only
    rw [update_of_ne hj, hfs]
    rfl
  -- The entry of the file is found, and the file gets another slot.
  obtain ⟨⟨j, fs₃⟩, hget₃, hgot⟩ := Fs.iget_ok (fs₀.setInode i (Mkfs.rootSlot fs₀)) ROOTDEV (k + 2)
    ⟨i + 1, by rw [hfree _ (by simp)]; rfl⟩
  have hfound : (fs₀.setInode i (Mkfs.rootSlot fs₀)).dirlookup devsw i (fun j => name.getD j 0) =
      .ok (some (j, Fs.DIRENT * (k + 2)), fs₃) := by
    rw [hlook i, Fs.found, hslot]
    exact congrArg (· >>= _) hget₃
  have hnext : j ≠ i ∧ fs₃ = (fs₀.setInode i (Mkfs.rootSlot fs₀)).setInode j (newSlot noInode.toDinode (k + 2)) := by
    cases hgot with
    | hit _ hpos _ hinum =>
      by_cases hji : j = i
      · subst hji
        rw [hslot] at hinum
        exact absurd (show 1 = k + 2 from hinum) (by omega)
      · rw [hfree j hji] at hpos
        exact absurd hpos (Nat.lt_irrefl 0)
    | fresh _ hzero _ =>
      have hji : j ≠ i := by
        rintro rfl
        rw [hslot] at hzero
        exact absurd hzero Nat.one_ne_zero
      rw [hfree j hji]
      exact ⟨hji, rfl⟩
  obtain ⟨hji, rfl⟩ := hnext
  obtain ⟨fs₄, hput, hblk, hsb, hdisk, hj⟩ := h.putRoot hfs hji (newSlot noInode.toDinode (k + 2))
  refine ⟨j, fs₄, noInode.toDinode, ?_, hblk, hsb, hdisk, hj⟩
  have hwalk : Fs.namexFrom devsw false (SLASH :: name).length fs₁ i (SLASH :: name) [] = .ok (some j, name, fs₄) := by
    rw [List.length_cons, Fs.namexFrom, hskip]
    dsimp only
    rw [hlock, ok_bind, hslot, if_neg (fun hne => hne (h.rootSlot hfs).1), if_neg (by simp), hfound]
    dsimp only [pure_eq, ok_bind]
    rw [hput, ok_bind]
    cases name.length <;> rfl
  simp only [Fs.namei, Fs.namex, List.head?_cons, if_true, hget, ok_bind, hwalk, pure_eq]

theorem Holds.readFile (devsw : DevSw) (hp : Proper files) (hk : k < files.length) {i : InodeIdx} {fs₁ : Fs} {d : Dinode}
    (hblk : fs₁.blk = fs₀.blk) (hsb : fs₁.sb = fs₀.sb) (hdisk : fs₁.disksize = fs₀.disksize)
    (hslot : fs₁.inode i = newSlot d (k + 2)) :
    ∃ fs₂, fs₁.ilock i = .ok fs₂ ∧ (fs₂.inode i).type.toNat = T_FILE ∧ (fs₂.inode i).nlink = 1 ∧
      (fs₂.inode i).size.toNat = (files.get ⟨k, hk⟩).data.length ∧
      fs₂.readi devsw i 0 (fs₂.inode i).size =
        .ok (((files.get ⟨k, hk⟩).data.length : Int), (files.get ⟨k, hk⟩).data, fs₂) := by
  have hn : Fits NINODES := by decide
  have hlen := hp.inodes
  have hf := h.final hn
  have hsound := h.sound
  rw [← hfs] at hf hsound
  have himg : fs₁.img = fs₀.img := by
    unfold Fs.img
    rw [hblk, hsb]
  have hsound₁ : fs₁.Sound := by
    refine ⟨⟨hsb ▸ hsound.super.ok, ?_, ?_⟩, ?_⟩
    · rw [hblk, hsb]
      exact hsound.super.block
    · rw [hsb, hdisk]
      exact hsound.super.disk
    · rw [himg, hsb]
      exact hsound.owned
  obtain ⟨htype, hnlink, hdata⟩ := h.file k (files.get ⟨k, hk⟩) (List.getElem?_eq_getElem hk)
  have hne : k + 2 ≠ ROOTINO := by
    simp only [ROOTINO]
    omega
  have hlt : k + 2 < NINODES := by omega
  have hino : fs₁.img.ino (k + 2) = (bare NINODES m).img.ino (k + 2) := by rw [himg, hf.ino _ hlt hne]
  have hpos : (fs₁.img.ino (k + 2)).type ≠ 0 := fun hz => by
    rw [hino] at hz
    rw [hz] at htype
    exact absurd htype (by decide)
  have hninodes : fs₁.sb.ninodes = NINODES := by
    rw [hsb, hfs]
    rfl
  have hlock := hsound₁.super.ilock hslot Nat.one_pos rfl rfl rfl (by rw [hninodes]; exact hlt) hpos
  generalize hfs₂ : fs₁.setInode i _ = fs₂ at hlock
  have himg₂ : fs₂.img = fs₁.img := by
    rw [← hfs₂]
    rfl
  have hslot₂ : fs₂.inode i = { newSlot d (k + 2) with toDinode := fs₁.img.ino (k + 2), busy := true, valid := true } := by
    rw [← hfs₂]
    exact Fs.inode_setInode_self ..
  have hsize : (fs₂.inode i).size.toNat = (files.get ⟨k, hk⟩).data.length := by
    rw [hslot₂, ← hdata, length_contents, ← hino]
  have hdev : ((bare NINODES m).img.ino (k + 2)).type.toNat ≠ T_DEV := by
    rw [htype]
    decide
  have hold := h.wf.noHole (k + 2) (hino ▸ hpos) hdev
  have hsync : fs₂.img.ino (fs₂.inode i).inum = (fs₂.inode i).toDinode := by
    rw [himg₂, hslot₂]
    rfl
  have hread : fs₂.Readable i (fs₂.inode i).size.toNat := by
    have hsound₂ : fs₂.Sound := by
      rw [← hfs₂]
      exact ⟨⟨hsound₁.super.ok, hsound₁.super.block, hsound₁.super.disk⟩, hsound₁.owned⟩
    have hsb₂ : fs₂.sb.ninodes = NINODES := by
      rw [← hfs₂]
      exact hninodes
    refine ⟨hsound₂.working (by rw [hslot₂]; rfl) (by rw [hsb₂, hslot₂]; exact hlt) (by rw [hslot₂]; exact hpos) hsync, ?_, le_rfl, ?_,
      fun bn hbn => ?_⟩
    · rw [hslot₂]
      exact hino ▸ hdev
    · rw [hslot₂]
      change (fs₁.img.ino (k + 2)).size.toNat ≤ _
      rw [hino]
      exact hold.size_le
    · rw [Fs.imgAt_of_synced hsync, himg₂, himg, hslot₂]
      change fs₀.img.ptr (blockPlace (k + 2) bn) ≠ 0
      rw [hf.ptr _ (by simpa using hlt)]
      refine hold.alloc bn ?_
      rw [hslot₂] at hbn
      rw [← hino]
      exact hbn
  refine ⟨fs₂, hlock, ?_, ?_, hsize, ?_⟩
  · rw [hslot₂]
    exact hino ▸ htype
  · rw [hslot₂]
    exact hino ▸ hnlink
  · have hbytes : (List.range (fs₂.inode i).size.toNat).map (fun q => (fs₂.imgAt i).byteAt (fs₂.inode i).inum (0 + q)) =
        (files.get ⟨k, hk⟩).data := by
      rw [← hdata, Img.contents, ← hino, hsize, hslot₂, ← hsize, hslot₂]
      refine List.map_congr_left fun q _ => ?_
      rw [Fs.imgAt_of_synced hsync, himg₂, himg, Nat.zero_add]
      exact hf.byteAt _ hlt q
    have hall : fs₂.readi devsw i (.ofNat 0) (.ofNat (fs₂.inode i).size.toNat) = _ := hread.readi (by omega)
    rw [UInt32.ofNat_toNat, hbytes] at hall
    rw [← hsize]
    exact hall

end Lookup

/-- `mkfs` and the kernel agree: `mkfs` exits normally, the kernel finds every file on the image by its name and reads
    the bytes that were put into it, and the bitmap has the bits set of the metadata blocks and of the blocks that some
    inode leads to. -/
theorem mkfs_kernel_agree (devsw : DevSw) (cwd : Option InodeIdx) (hp : Proper files) :
    ∃ m', main files = .ok m' ∧
      (∀ f ∈ files, ∃ i fs₁ fs₂, (Fs.mount m'.blk m'.len).namei devsw cwd (SLASH :: fsName f.name) = .ok (some i, fs₁) ∧
        fs₁.ilock i = .ok fs₂ ∧ (fs₂.inode i).type.toNat = T_FILE ∧ (fs₂.inode i).nlink = 1 ∧
        (fs₂.inode i).size.toNat = f.data.length ∧
        fs₂.readi devsw i 0 (fs₂.inode i).size = .ok ((f.data.length : Int), f.data, fs₂)) ∧
      ∀ fs, fs = Fs.mount m'.blk m'.len → ∀ b < fs.sb.size,
        ((fs.blk (fs.sb.bblock b)).bit (b % BPB) = true ↔ b < fs.sb.nmeta ∨ ∃ p, fs.img.ptr p = b) := by
  have hn : Fits NINODES := by decide
  obtain ⟨m', hmain, m, h, rfl⟩ := (main_spec hn hp.inodes).exists_ok fun _ => hp.fit
  have hmount := mount_eq hn h
  refine ⟨_, hmain, fun f hf => ?_, fun fs hfs => ?_⟩
  · obtain ⟨k, rfl⟩ := List.mem_iff_get.mp hf
    obtain ⟨i, fs₁, d, hnamei, hblk, hsb, hdisk, hslot⟩ := h.namei hmount devsw cwd hp k.isLt
    obtain ⟨fs₂, hlock, hfile⟩ := h.readFile hmount devsw hp k.isLt hblk hsb hdisk hslot
    exact ⟨i, fs₁, fs₂, hnamei, hlock, hfile⟩
  · rw [hmount] at hfs
    exact h.bitmap_exact hfs

def twoFiles : List HostFile := [⟨[95, 115, 104], [1, 2, 3]⟩, ⟨[82], []⟩]

theorem twoFiles_proper : Proper twoFiles where
  slash := by decide
  nul := by decide
  name := by decide
  distinct := by decide
  size := by decide
  inodes := by decide
  blocks := by decide

theorem mkfs_kernel_agree_two : ∃ m', main twoFiles = .ok m' ∧ ∃ i fs₁ fs₂,
    (Fs.mount m'.blk m'.len).namei ⟨fun _ => none, fun _ => none⟩ none [47, 115, 104] = .ok (some i, fs₁) ∧
    fs₁.ilock i = .ok fs₂ ∧ fs₂.readi ⟨fun _ => none, fun _ => none⟩ i 0 (fs₂.inode i).size = .ok (3, [1, 2, 3], fs₂) := by
  obtain ⟨m', hmain, hfiles, -⟩ := mkfs_kernel_agree ⟨fun _ => none, fun _ => none⟩ none twoFiles_proper
  obtain ⟨i, fs₁, fs₂, hnamei, hlock, -, -, -, hread⟩ := hfiles ⟨[95, 115, 104], [1, 2, 3]⟩ List.mem_cons_self
  exact ⟨m', hmain, i, fs₁, fs₂, hnamei, hlock, hread⟩

end Mkfs
end Xv6
