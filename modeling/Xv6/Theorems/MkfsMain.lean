import Xv6.Theorems.MkfsImage

/-! The image that `mkfs` writes, and what the kernel finds on it. -/

namespace Xv6
open Bytes Ownership
open Function (update update_of_ne update_self)
open Outcome (ok_bind)

namespace Mkfs
variable {n inum : Nat} {m m' : Mkfs} {files : List HostFile}

/-! ### The empty image -/

theorem format_eq : format = { blk := update (fun _ => .zero) 1 (encodeSb sb), len := FSSIZE, freeinode := 1, freeblock := nmeta } := by
  have hfold : ∀ k, k ≤ FSSIZE → (List.range k).foldl (fun (m : Mkfs) i => m.wsect i .zero)
      { blk := fun _ => .zero, len := 0, freeinode := 1, freeblock := nmeta } =
      { blk := fun _ => .zero, len := k, freeinode := 1, freeblock := nmeta } := by
    intro k
    induction k with
    | zero => exact fun _ => rfl
    | succ k ih =>
      intro hk
      have hsec : sector k = k := sector_eq (lt_of_lt_of_le hk (by decide))
      rw [List.range_succ, List.foldl_append, ih (by omega)]
      simp only [List.foldl_cons, List.foldl_nil, wsect, hsec]
      rw [max_eq_right (Nat.le_succ k), Function.update_eq_self_iff.mpr rfl]
  have hsec : sector 1 = 1 := sector_eq (by decide)
  unfold format
  dsimp only
  rw [hfold FSSIZE le_rfl, wsect, hsec]
  rfl

-- The image has a thousand blocks: `format_eq` and what is proved of `main` say what it is, not its computation.
attribute [local irreducible] format main

theorem format_clean : Clean format := by
  rw [format_eq]
  refine ⟨rfl, ?_, le_rfl, by decide, fun b hb => ?_⟩
  · dsimp only
    rw [update_self]
  · have hb : nmeta ≤ b := hb
    rw [nmeta_eq] at hb
    dsimp only
    rw [update_of_ne (by omega)]

theorem readDinode_zero (i : Nat) : readDinode .zero i = { type := 0 } := by
  unfold readDinode
  simp only [Buffer.word_zero]
  rfl

theorem format_free (hn : Fits n) (j : Nat) : (bare n format).img.ino j = { type := 0 } := by
  by_cases hj : j < n
  · have hr := iblock_range hn hj
    rw [ino_bare hn hj, format_eq]
    dsimp only
    rw [update_of_ne (by omega), readDinode_zero]
  · exact if_neg hj

theorem decode_sbWith (hn : Fits n) : decodeSb (encodeSb (sbWith n)) = sbWith n := by
  have hsmall : n < 2 ^ 32 := by
    unfold Fits at hn
    simp only [IPB, BSIZE] at hn
    omega
  have hword : ∀ k, k < 7 → (encodeSb (sbWith n)).word 4 (4 * k) =
      [FSSIZE, nblocks, n, nlog, 2, 2 + nlog, 2 + nlog + ninodeblocks].getD k 0 % 256 ^ 4 := fun k hk => by
    have := Buffer.word_setWords (n := BSIZE) (k := 4) [FSSIZE, nblocks, n, nlog, 2, 2 + nlog, 2 + nlog + ninodeblocks] .zero 0
      (i := k) (show 0 + 4 * 7 ≤ BSIZE by decide) hk
    rwa [Nat.zero_add] at this
  have h0 := hword 0 (by decide)
  have h1 := hword 1 (by decide)
  have h2 := hword 2 (by decide)
  have h3 := hword 3 (by decide)
  have h4 := hword 4 (by decide)
  have h5 := hword 5 (by decide)
  have h6 := hword 6 (by decide)
  unfold decodeSb
  simp only [Nat.mul_zero, Nat.reduceMul] at h0 h1 h2 h3 h4 h5 h6
  rw [h0, h1, h2, h3, h4, h5, h6]
  simp only [List.getD_cons_zero, List.getD_cons_succ, Nat.mod_eq_of_lt (show n < 256 ^ 4 from hsmall)]
  rfl

theorem format_ready (hn : Fits n) : Ready n format := by
  have hfree : ∀ j, ((bare n format).img.ino j).type = 0 := fun j => by rw [format_free hn]
  have hptr : ∀ p, (bare n format).img.ptr p = 0 := fun p => Img.ptr_free (hfree _) rfl
  refine ⟨format_clean, ⟨⟨sbWith_ok hn, ?_, le_rfl⟩, ?_, fun j hj => absurd (hfree j) hj, fun i hi => absurd hi (Nat.lt_irrefl 0),
    fun i hi => absurd hi (Nat.lt_irrefl 0), fun i j hi => absurd hi (Nat.lt_irrefl 0)⟩, fun j => ⟨fun bn _ _ => hptr _,
    fun p _ _ => ?_⟩, fun j _ => format_free hn j⟩
  · have hblk : (bare n format).blk 1 = encodeSb (sbWith n) := by
      change update (update format.blk 1 (encodeSb (sbWith n))) sb.bmapstart (bitmap format.freeblock) 1 = _
      rw [update_of_ne (by decide), update_self]
    rw [hblk]
    exact decode_sbWith hn
  · refine ⟨fun p hp => absurd (hptr p) hp, fun p q hp => absurd (hptr p) hp, fun b hb => hb.elim,
      fun p hp => absurd (hptr p) hp, fun b hb => ?_⟩
    have hblock : format.freeblock = 59 := by
      rw [format_eq]
      exact nmeta_eq
    rw [used_disk format_clean hb, decide_eq_true_eq, hblock, show (bare n format).sb = sbWith n from rfl, nmeta_sbWith]
    refine ⟨Or.inl, ?_⟩
    rintro (hlt | ⟨p, hp, hb0⟩ | hmem)
    · exact hlt
    · exact absurd (hp.symm.trans (hptr p)) hb0
    · exact hmem.elim
  · rw [Img.byteAt, hptr, Fs.data_img_zero, Buffer.byte_zero]

theorem makeRoot_ok (hn : Fits n) : ∃ m, format.makeRoot = .ok m ∧ Holds n m [] := by
  have hino : format.freeinode = ROOTINO := by rw [format_eq]
  have hblock : format.freeblock = nmeta := by rw [format_eq]
  have hlt : ROOTINO < n := by
    unfold Fits at hn
    simp only [IPB, BSIZE, ROOTINO] at *
    omega
  obtain ⟨m₁, hal, a₁⟩ := ialloc_ok (format_ready hn) hn (by rw [hino]; decide) (by rw [hino]; exact hlt) (.ofNat T_DIR)
  have hino₁ := a₁.ino
  rw [hino] at hal hino₁
  have hfile₁ : IsFile n m₁ ROOTINO := by
    unfold IsFile
    rw [hino₁]
    exact ⟨hlt, by decide, by decide⟩
  have hsize₁ : ((bare n m₁).img.ino ROOTINO).size.toNat = 0 := by
    rw [hino₁]
    rfl
  have hne : ∀ name, dirent name ROOTINO ≠ [] := fun name => List.ne_nil_of_length_pos (by rw [length_dirent]; decide)
  obtain ⟨m₂, happ₂, a₂⟩ := (iappend_spec a₁.toReady hn hfile₁ (hne [46])).exists_ok fun o hfull => by
    unfold Full at hfull
    rw [hsize₁, length_dirent, a₁.freeblock, hblock] at hfull
    exact absurd hfull (by decide)
  have hblocks₂ := a₂.blocks
  have hsize₂ := a₂.size
  rw [hsize₁, length_dirent] at hblocks₂ hsize₂
  rw [a₁.freeblock, hblock] at hblocks₂
  have hneed : Fs.needed 0 = 0 ∧ Fs.needed (0 + Fs.DIRENT) = 1 ∧ Fs.needed (0 + Fs.DIRENT + Fs.DIRENT) = 1 := by decide
  obtain ⟨m₃, happ₃, a₃⟩ := (iappend_spec a₂.toReady hn (a₂.isFile hfile₁) (hne [46, 46])).exists_ok fun o hfull => by
    unfold Full at hfull
    rw [hsize₂, length_dirent, hneed.2.1, hneed.2.2] at hfull
    rw [hneed.1, hneed.2.1, nmeta_eq] at hblocks₂
    rcases hfull with hfull | hfull
    · exact absurd hfull (by decide)
    · change 1000 + 1 < _ at hfull
      omega
  have hblocks₃ := a₃.blocks
  rw [hsize₂, length_dirent] at hblocks₃
  refine ⟨m₃, ?_, a₃.toReady, ?_, ?_, ?_, (fun k f hk => nomatch hk), ?_⟩
  · rw [makeRoot, hal, ok_bind]
    dsimp only
    rw [if_neg (by decide), happ₂, ok_bind, happ₃]
  · rw [a₃.freeinode, a₂.freeinode, a₁.freeinode, hino]
    rfl
  · obtain ⟨size, addrs, h₂⟩ := a₂.ino
    obtain ⟨size', addrs', h₃⟩ := a₃.ino
    rw [h₃, h₂, hino₁]
    exact ⟨rfl, rfl⟩
  · have hcont₁ : (bare n m₁).img.contents ROOTINO = [] := by
      rw [Img.contents, hsize₁]
      rfl
    rw [a₃.contents, a₂.contents, hcont₁]
    rfl
  · have htotal : total [] = nmeta + 1 := by decide
    rw [htotal]
    omega

/-! ### The end of `main` -/

/-- The inode of the root directory with its size rounded up to whole blocks. -/
def roundedRoot (n : Nat) (m : Mkfs) : Dinode :=
  { (bare n m).img.ino ROOTINO with size := .ofNat ((((bare n m).img.ino ROOTINO).size.toNat / BSIZE + 1) * BSIZE) }

def rounded (n : Nat) (m : Mkfs) : Mkfs := m.putInode ROOTINO (roundedRoot n m)

/-- `mkfs` adds the files, or the list is unfit. -/
theorem main_spec (hn : Fits n) (hlen : files.length + 2 ≤ n) :
    (main files).Spec (fun m' => ∃ m, Holds n m files ∧ m' = (rounded n m).wsect sb.bmapstart (bitmap m.freeblock))
      fun _ => Unfit files := by
  obtain ⟨m₀, hroot, h₀⟩ := makeRoot_ok hn
  have hfiles := addFiles_spec hn files [] m₀ h₀ (by simpa using hlen)
  simp only [List.nil_append] at hfiles
  unfold main
  rw [hroot, ok_bind]
  refine Outcome.Spec.bind hfiles ?_
  intro m h
  have hi := (h.isFile hn).1
  have hbits : (rounded n m).freeblock < BSIZE * 8 := lt_of_le_of_lt h.clean.hi (show FSSIZE < BSIZE * 8 by decide)
  have hfix : m.fixRoot = .ok (rounded n m) := by
    rw [fixRoot, rinode_eq h.clean hn hi, ok_bind, winode_eq h.clean hn hi]
    rfl
  rw [hfix, ok_bind, balloc, if_pos hbits]
  exact ⟨m, h, rfl⟩

/-! ### What the kernel mounts -/

theorem mount_eq (hn : Fits n) (h : Holds n m files) :
    Fs.mount ((rounded n m).wsect sb.bmapstart (bitmap m.freeblock)).blk ((rounded n m).wsect sb.bmapstart (bitmap m.freeblock)).len =
      bare NINODES (rounded n m) := by
  have c : Clean (rounded n m) := h.clean.putInode hn (h.isFile hn).1 _
  have hsuper : encodeSb (sbWith NINODES) = (rounded n m).blk 1 := c.super.symm
  have hblk : update (update (rounded n m).blk 1 (encodeSb (sbWith NINODES))) sb.bmapstart
      (bitmap m.freeblock) = update (rounded n m).blk sb.bmapstart (bitmap m.freeblock) := by
    rw [hsuper, Function.update_eq_self]
  have h1 : update (rounded n m).blk sb.bmapstart (bitmap m.freeblock) 1 = encodeSb (sbWith NINODES) := by
    rw [update_of_ne (by decide), hsuper]
  have hlen : (rounded n m).len = FSSIZE := c.len
  rw [wsect_eq c (by decide)]
  unfold Fs.mount bare disk
  dsimp only
  rw [h1, hlen, decode_sbWith (by decide), show (rounded n m).freeblock = m.freeblock from rfl, hblk]
  rfl

theorem ino_mount (hn : Fits n) {M : Mkfs} {j : Nat} (hj : j < NINODES) :
    (bare NINODES M).img.ino j = (bare n M).img.ino j := by
  have hle : NINODES ≤ n := by
    unfold Fits at hn
    simp only [IPB, BSIZE, NINODES] at *
    omega
  rw [ino_bare (by decide) hj, ino_bare hn (lt_of_lt_of_le hj hle)]

theorem data_mount (n : Nat) {M : Mkfs} : (bare NINODES M).img.data = (bare n M).img.data := by
  have hdata : ∀ k b, (bare k M).img.data b = if 59 ≤ b then M.blk b else .zero := fun k b => by
    change (if (sbWith k).nmeta ≤ b then (bare k M).blk b else .zero) = _
    rw [nmeta_sbWith]
    split
    · rename_i hb
      exact blk_data hb
    · rfl
  exact funext fun b => (hdata _ b).trans (hdata _ b).symm

structure Final (n : Nat) (m : Mkfs) (g : Img) : Prop where
  root : g.ino ROOTINO = roundedRoot n m
  ino : ∀ j, j < NINODES → j ≠ ROOTINO → g.ino j = (bare n m).img.ino j
  none : ∀ j, NINODES ≤ j → g.ino j = { type := 0 }
  ptr : ∀ p : Place, p.inum < NINODES → g.ptr p = (bare n m).img.ptr p
  byteAt : ∀ j, j < NINODES → ∀ p, g.byteAt j p = (bare n m).img.byteAt j p

theorem Holds.final (hn : Fits n) (h : Holds n m files) : Final n m (bare NINODES (rounded n m)).img := by
  have hi := (h.isFile hn).1
  have hput : (bare n (rounded n m)).img = (bare n m).img.setIno ROOTINO (roundedRoot n m) := img_putInode hn hi _
  have hptr : ∀ p : Place, p.inum < NINODES → (bare NINODES (rounded n m)).img.ptr p = (bare n m).img.ptr p := fun p hp => by
    rw [Img.ptr_congr (ino_mount hn hp) (data_mount n), hput]
    exact Img.ptr_setIno_same (g := (bare n m).img) (i := ROOTINO) (d := roundedRoot n m) rfl rfl p
  refine ⟨?_, fun j hj hne => ?_, fun j hj => if_neg (not_lt.mpr hj), hptr, fun j hj p => ?_⟩
  · rw [ino_mount hn (by decide), hput, Img.ino_setIno_self]
  · rw [ino_mount hn hj, hput]
    exact update_of_ne hne _ _
  · rw [Img.byteAt, Img.byteAt, hptr _ (by simpa using hj), data_mount n, hput]
    rfl

/-! ### The root directory -/

theorem take_drop_flatten {α : Type} {k : Nat} : ∀ (ls : List (List α)) (s : Nat), (∀ l ∈ ls, l.length = k) →
    (ls.flatten.drop (k * s)).take k = ls.getD s []
  | [], s, _ => by simp
  | l :: ls, 0, h => by
    have hl := h l List.mem_cons_self
    rw [List.flatten_cons, Nat.mul_zero, List.drop_zero, List.take_left' hl]
    rfl
  | l :: ls, s + 1, h => by
    have hl := h l List.mem_cons_self
    rw [List.flatten_cons, Nat.mul_succ, Nat.add_comm, ← List.drop_drop, List.drop_left' hl,
      take_drop_flatten ls s fun l hl => h l (List.mem_cons_of_mem _ hl)]
    rfl

theorem Holds.direntAt {g : Img} (h : Holds n m files) (hf : Final n m g) {s : Nat} (hs : s < files.length + 2) :
    g.direntAt ROOTINO s = (entries files).getD s [] := by
  have hsize := h.size
  have hle : Fs.DIRENT * (s + 1) ≤ ((bare n m).img.ino ROOTINO).size.toNat := by
    rw [hsize]
    exact Nat.mul_le_mul_left _ hs
  have hsame : g.direntAt ROOTINO s = (bare n m).img.direntAt ROOTINO s :=
    List.map_congr_left fun q _ => hf.byteAt _ (by decide) _
  rw [hsame, Img.direntAt_eq hle, h.dir]
  exact take_drop_flatten _ s fun e he => length_of_mem_entries he

theorem direntInum_entries {s : Nat} (hs : s < files.length + 2) (hsmall : s < 2 ^ 16) :
    Fs.direntInum ((entries files).getD s []) = max s 1 := by
  match s, hs with
  | 0, _ => exact Fs.direntInum_encodeDirent _ _
  | 1, _ => exact Fs.direntInum_encodeDirent _ _
  | s + 2, hs =>
    have hget : (entries files).getD (s + 2) [] = dirent (fsName (files.get ⟨s, by omega⟩).name) (s + 2) := by
      unfold entries
      rw [List.getD_cons_succ, List.getD_cons_succ, List.getD_eq_getElem _ _ (by simpa using hs)]
      simp
    rw [hget]
    refine (Fs.direntInum_encodeDirent _ _).trans ?_
    rw [Nat.mod_eq_of_lt hsmall]
    omega

theorem Holds.direntInum_behind {g : Img} (h : Holds n m files) (hf : Final n m g) {s : Nat} (hs : files.length + 2 ≤ s)
    (hmax : Fs.DIRENT * (s + 1) ≤ MAXFILE * BSIZE) : Fs.direntInum (g.direntAt ROOTINO s) = 0 := by
  have hsize := h.size
  have hzero : g.direntAt ROOTINO s = List.replicate Fs.DIRENT 0 := by
    refine List.eq_replicate_iff.mpr ⟨by simp [Img.direntAt], fun c hc => ?_⟩
    unfold Img.direntAt at hc
    obtain ⟨q, hq, rfl⟩ := List.mem_map.mp hc
    have hq' := List.mem_range.mp hq
    rw [hf.byteAt _ (by decide)]
    refine (h.tight ROOTINO).byte _ ?_ ?_
    · rw [hsize]
      exact (Nat.mul_le_mul_left _ hs).trans (Nat.le_add_right _ _)
    · rw [Nat.mul_succ] at hmax
      omega
  rw [hzero]
  decide

theorem Holds.size_root {g : Img} (h : Holds n m files) (hf : Final n m g) (hlen : files.length ≤ 205) :
    (g.ino ROOTINO).size.toNat = ((files.length + 2) / 32 + 1) * BSIZE := by
  have hround : Fs.DIRENT * (files.length + 2) / BSIZE = (files.length + 2) / 32 := by
    simp only [Fs.DIRENT, DIRSIZ, BSIZE]
    omega
  rw [hf.root, roundedRoot]
  dsimp only
  rw [h.size, hround, UInt32.toNat_ofNat_of_lt' (by simp only [BSIZE, UInt32.size]; omega)]

/-! ### Well-formed images -/

/-- Every inode number in the root directory is one that the disk has, every block number in an inode or an indirect
    block is that of a data block, and no file has a hole. -/
structure WellFormed (fs : Fs) : Prop where
  inums : ∀ s, Fs.DIRENT * s < (fs.img.ino ROOTINO).size.toNat → Fs.direntInum (fs.img.direntAt ROOTINO s) < fs.sb.ninodes
  blocks : ∀ p, fs.img.ptr p ≠ 0 → fs.sb.nmeta ≤ fs.img.ptr p ∧ fs.img.ptr p < fs.sb.size
  noHole : ∀ j, fs.img.NoHole j

def FreeEmpty (fs : Fs) : Prop := ∀ j, (fs.img.ino j).type = 0 → (fs.img.ino j).size = 0 ∧ ∀ k, (fs.img.ino j).addrs k = 0

/-- The number of files leaves inodes for all of them, and the entries of the root directory do not end with a block. -/
def FewFiles (files : List HostFile) : Prop := files.length ≤ NINODES - 2 ∧ (files.length + 2) % 32 ≠ 0

instance (files : List HostFile) : Decidable (FewFiles files) := inferInstanceAs (Decidable (_ ∧ _))

theorem Holds.ino_cases (h : Holds n m files) (j : Nat) :
    (bare n m).img.ino j = { type := 0 } ∨
      ((bare n m).img.ino j).type ≠ 0 ∧ ((bare n m).img.ino j).type.toNat ≠ T_DEV := by
  by_cases hfresh : j = 0 ∨ m.freeinode ≤ j
  · exact Or.inl (h.fresh j hfresh)
  · rw [h.freeinode] at hfresh
    have htype : ((bare n m).img.ino j).type.toNat = T_DIR ∨ ((bare n m).img.ino j).type.toNat = T_FILE := by
      by_cases hj : j = 1
      · subst hj
        exact Or.inl h.root.1
      · obtain ⟨k, rfl⟩ : ∃ k, j = k + 2 := ⟨j - 2, by omega⟩
        have hk : k < files.length := by omega
        exact Or.inr (h.file k _ (List.getElem?_eq_getElem hk)).1
    refine Or.inr ⟨fun hz => ?_, fun hd => ?_⟩
    · rw [hz] at htype
      exact absurd htype (by decide)
    · rw [hd] at htype
      exact absurd htype (by decide)

theorem noHole_of_free {g : Img} {j : Nat} (h : g.ino j = { type := 0 }) : g.NoHole j := by
  refine ⟨by rw [h]; exact Nat.zero_le _, fun bn hbn => ?_⟩
  rw [h] at hbn
  exact absurd hbn (Nat.not_lt_zero _)

theorem Holds.noHole_root {g : Img} (h : Holds n m files) (hn : Fits n) (hf : Final n m g) (hfew : FewFiles files) :
    g.NoHole ROOTINO := by
  obtain ⟨hlen, hmod⟩ := hfew
  obtain ⟨-, htype, hdev⟩ := h.isFile hn
  have hold := h.wf.noHole ROOTINO htype hdev
  have hsize := h.size_root hf (hlen.trans (by decide))
  simp only [NINODES] at hlen
  refine ⟨?_, fun bn hbn => ?_⟩
  · rw [hsize]
    simp only [MAXFILE, NINDIRECT, NDIRECT, BSIZE]
    omega
  · rw [hf.ptr _ (by simp)]
    refine hold.alloc bn ?_
    rw [hsize] at hbn
    rw [h.size]
    simp only [Fs.DIRENT, DIRSIZ, BSIZE] at *
    omega

theorem Holds.wellFormed (h : Holds n m files) (hn : Fits n) (hfew : FewFiles files) :
    WellFormed (bare NINODES (rounded n m)) ∧ FreeEmpty (bare NINODES (rounded n m)) := by
  have hf := h.final hn
  have hlen : files.length ≤ 198 := hfew.1
  have hsize := h.size_root hf (by omega)
  generalize hfs : bare NINODES (rounded n m) = fs at hf hsize
  have hsb : fs.sb = sb := hfs ▸ rfl
  refine ⟨⟨fun s hs => ?_, fun p hp => ?_, fun j => ?_⟩, fun j hj => ?_⟩
  · rw [hsize] at hs
    rw [hsb]
    change _ < 200
    by_cases hin : s < files.length + 2
    · rw [h.direntAt hf hin, direntInum_entries hin (by omega)]
      omega
    · rw [h.direntInum_behind hf (not_lt.mp hin)]
      · decide
      · simp only [Fs.DIRENT, DIRSIZ, MAXFILE, NINDIRECT, NDIRECT, BSIZE] at *
        omega
  · have hin : p.inum < NINODES := by
      by_contra hge
      exact hp (Img.ptr_free (by rw [hf.none _ (not_lt.mp hge)]) rfl)
    rw [hf.ptr p hin] at hp ⊢
    have hr := h.wf.owned.range p hp
    rw [show (bare n m).sb = sbWith n from rfl, nmeta_sbWith] at hr
    rw [hsb, show sb.nmeta = 59 from nmeta_sbWith NINODES]
    exact hr
  · by_cases hin : j < NINODES
    · by_cases hroot : j = ROOTINO
      · subst hroot
        exact h.noHole_root hn hf hfew
      · have hino := hf.ino j hin hroot
        have hold : (bare n m).img.NoHole j := by
          rcases h.ino_cases j with hfree | ⟨htype, hdev⟩
          · exact noHole_of_free hfree
          · exact h.wf.noHole j htype hdev
        refine ⟨by rw [hino]; exact hold.size_le, fun bn hbn => ?_⟩
        rw [hino] at hbn
        rw [hf.ptr _ (by simpa using hin)]
        exact hold.alloc bn hbn
    · exact noHole_of_free (hf.none j (not_lt.mp hin))
  · by_cases hin : j < NINODES
    · by_cases hroot : j = ROOTINO
      · subst hroot
        rw [hf.root] at hj
        exact absurd hj (h.isFile hn).2.1
      · rw [hf.ino j hin hroot] at hj ⊢
        rcases h.ino_cases j with hfree | ⟨htype, -⟩
        · rw [hfree]
          exact ⟨rfl, fun _ => rfl⟩
        · exact absurd hj htype
    · rw [hf.none j (not_lt.mp hin)]
      exact ⟨rfl, fun _ => rfl⟩

theorem Holds.not_wellFormed (h : Holds n m files) (hn : Fits n) (hlen : files.length ≤ 205) (hmany : ¬FewFiles files) :
    ¬WellFormed (bare NINODES (rounded n m)) := by
  intro hw
  have hf := h.final hn
  have hsize := h.size_root hf hlen
  by_cases hinodes : files.length ≤ 198
  · -- The directory ends with a block, and the next one is missing.
    have hmod : (files.length + 2) % 32 = 0 := by
      by_contra hmod
      exact hmany ⟨hinodes, hmod⟩
    have hbn : (files.length + 2) / 32 * BSIZE < ((bare NINODES (rounded n m)).img.ino ROOTINO).size.toNat := by
      rw [hsize]
      exact Nat.mul_lt_mul_of_pos_right (Nat.lt_succ_self _) (by decide)
    have hptr := (hw.noHole ROOTINO).alloc _ hbn
    rw [hf.ptr _ (by simp)] at hptr
    refine hptr ((h.tight ROOTINO).ptr _ ?_ ?_)
    · simp only [MAXFILE, NINDIRECT, NDIRECT, BSIZE]
      omega
    · rw [h.size]
      simp only [Fs.blocks, Fs.DIRENT, DIRSIZ, BSIZE]
      omega
  · -- There is a file with inode number 200.
    have hin : 200 < files.length + 2 := by omega
    have hinum := hw.inums 200 (by rw [hsize]; simp only [Fs.DIRENT, DIRSIZ, BSIZE]; omega)
    rw [h.direntAt hf hin, direntInum_entries hin (by decide)] at hinum
    exact absurd hinum (lt_irrefl 200)

theorem exists_fits : ∃ n, Fits n ∧ 207 ≤ n := ⟨207, by decide, le_rfl⟩

/-- If `mkfs` exits normally, what it has written is well formed, with nothing in the free inodes, if the files are few
    enough; and as long as the inodes of all files have a place it is well formed only then. -/
theorem mkfs_wellFormed (h : main files = .ok m') :
    (FewFiles files → WellFormed (Fs.mount m'.blk m'.len) ∧ FreeEmpty (Fs.mount m'.blk m'.len)) ∧
      (files.length ≤ 205 → WellFormed (Fs.mount m'.blk m'.len) → FewFiles files) := by
  obtain ⟨n, hn, hle⟩ := exists_fits
  have hholds : files.length ≤ 205 → ∃ m, Holds n m files ∧ Fs.mount m'.blk m'.len = bare NINODES (rounded n m) := by
    intro hlen
    obtain ⟨m, hm, rfl⟩ := (main_spec hn (by omega)).of_eq_ok h
    exact ⟨m, hm, mount_eq hn hm⟩
  refine ⟨fun hfew => ?_, fun hlen hw => ?_⟩
  · obtain ⟨m, hm, heq⟩ := hholds (hfew.1.trans (by decide))
    rw [heq]
    exact hm.wellFormed hn hfew
  · obtain ⟨m, hm, heq⟩ := hholds hlen
    rw [heq] at hw
    by_contra hmany
    exact hm.not_wellFormed hn hlen hmany hw

/-- A number of empty files. -/
def emptyFiles (k : Nat) : List HostFile := List.replicate k ⟨[97], []⟩

theorem length_emptyFiles (k : Nat) : (emptyFiles k).length = k := List.length_replicate

theorem emptyFiles_fit {k : Nat} (hk : k ≤ 205) : ¬Unfit (emptyFiles k) := by
  rintro (⟨f, hf, h⟩ | h | h)
  · obtain rfl : f = ⟨[97], []⟩ := List.eq_of_mem_replicate hf
    exact absurd h (by decide)
  · rw [length_emptyFiles] at h
    simp only [Fs.DIRENT, DIRSIZ, MAXFILE, NINDIRECT, NDIRECT, BSIZE] at h
    omega
  · have hzero : Fs.needed ([] : List UInt8).length = 0 := by decide
    have hsum : ((emptyFiles k).map fun f => Fs.needed f.data.length).sum = 0 := by
      rw [emptyFiles, List.map_replicate, List.sum_replicate, hzero, smul_zero]
    have hneed : Fs.needed (Fs.DIRENT * (k + 2)) ≤ Fs.needed (Fs.DIRENT * 207) :=
      Fs.needed_mono (Nat.mul_le_mul_left _ (by omega))
    have hval : Fs.needed (Fs.DIRENT * 207) = 7 := by decide
    unfold total at h
    rw [length_emptyFiles, hsum, nmeta_eq] at h
    change 1000 < _ at h
    omega

theorem main_emptyFiles {k : Nat} (hn : Fits n) (hle : 207 ≤ n) (hk : k ≤ 205) :
    ∃ m, main (emptyFiles k) = .ok ((rounded n m).wsect sb.bmapstart (bitmap m.freeblock)) ∧ Holds n m (emptyFiles k) := by
  have hlen := length_emptyFiles k
  obtain ⟨m', hmain, m, hm, rfl⟩ := (@main_spec _ (emptyFiles k) hn (by omega)).exists_ok fun _ => emptyFiles_fit hk
  exact ⟨m, hmain, hm⟩

theorem mkfs_wellFormed_three : ∃ m', main (emptyFiles 3) = .ok m' ∧ WellFormed (Fs.mount m'.blk m'.len) ∧
    FreeEmpty (Fs.mount m'.blk m'.len) := by
  obtain ⟨n, hn, hle⟩ := exists_fits
  obtain ⟨m, hmain, -⟩ := main_emptyFiles (k := 3) hn hle (by decide)
  exact ⟨_, hmain, (mkfs_wellFormed hmain).1 (by decide)⟩

/-- A root directory with 32 entries gets the size of two blocks, of which it has one; with 199 files there is one with
    inode number 200. -/
theorem mkfs_ill_formed : (∃ m', main (emptyFiles 30) = .ok m' ∧ ¬WellFormed (Fs.mount m'.blk m'.len)) ∧
    ∃ m', main (emptyFiles 199) = .ok m' ∧ ¬WellFormed (Fs.mount m'.blk m'.len) := by
  obtain ⟨n, hn, hle⟩ := exists_fits
  have hill : ∀ k, k ≤ 205 → ¬(k ≤ 198 ∧ (k + 2) % 32 ≠ 0) →
      ∃ m', main (emptyFiles k) = .ok m' ∧ ¬WellFormed (Fs.mount m'.blk m'.len) := by
    intro k hk hmany
    have hlen := length_emptyFiles k
    obtain ⟨m, hmain, hm⟩ := main_emptyFiles hn hle hk
    refine ⟨_, hmain, ?_⟩
    rw [mount_eq hn hm]
    refine hm.not_wellFormed hn (by omega) ?_
    unfold FewFiles
    rw [hlen]
    exact hmany
  exact ⟨hill 30 (by decide) (by decide), hill 199 (by decide) (by decide)⟩

end Mkfs
end Xv6
