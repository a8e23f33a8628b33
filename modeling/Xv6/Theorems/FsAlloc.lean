import Xv6.Theorems.FsImage

/-! What `balloc`, `bfree`, `iupdate` and `bmap` do to the image of the file system. -/

namespace Xv6
open Bytes Ownership

namespace Fs

/-- The super block describes a disk that `mkfs` has laid out, and it is the one in block 1. -/
structure Super (fs : Fs) : Prop where
  ok : fs.sb.Ok
  block : decodeSb (fs.blk 1) = fs.sb
  disk : fs.sb.size ≤ fs.disksize

def img (fs : Fs) : Img := imgOf fs.sb fs.blk

/-- The image as the holder of inode slot `i` sees it: with the inode in memory for the one on disk. -/
def imgAt (fs : Fs) (i : InodeIdx) : Img := fs.img.setIno (fs.inode i).inum (fs.inode i).toDinode

variable {fs fs' : Fs} {b : Nat} {i : InodeIdx}

theorem Super.bread (hs : fs.Super) (hb : b < fs.sb.size) : fs.bread ROOTDEV b = .ok (fs.blk b) := by
  have := hs.disk
  rw [Fs.bread, if_neg (by decide), if_neg (by omega)]

theorem Super.logWrite (hs : fs.Super) (hb : b ≠ 1) (x : Block) : (fs.logWrite b x).Super where
  ok := hs.ok
  block := by
    show decodeSb (Function.update fs.blk b x 1) = fs.sb
    rw [Function.update_of_ne (Ne.symm hb)]
    exact hs.block
  disk := hs.disk

theorem Super.nmeta_gt (hs : fs.Super) : 1 < fs.sb.nmeta := by
  have := hs.ok.bmapstart_lt
  omega

/-! ### `balloc` -/

theorem ballocBit_some {x : Block} {size bi : Nat} : ∀ {left : Nat}, ballocBit x size b left = some bi →
    bi < BPB ∧ b + bi < size ∧ x.bit bi = false
  | 0, h => nomatch h
  | left + 1, h => by
    simp only [ballocBit] at h
    split at h
    · rename_i hlt
      split at h
      · exact ballocBit_some h
      · rename_i hbit
        cases h
        exact ⟨Nat.sub_lt (by decide) (Nat.succ_pos left), hlt, by simpa using hbit⟩
    · cases h

theorem ballocBit_none {x : Block} {size bi : Nat} : ∀ {left : Nat}, ballocBit x size b left = none → left ≤ BPB →
    BPB - left ≤ bi → bi < BPB → b + bi < size → x.bit bi = true
  | 0, _, _, hle, hlt, _ => by omega
  | left + 1, h, hleft, hle, hlt, hsize => by
    simp only [ballocBit] at h
    split at h
    · split at h
      · rename_i hbit
        by_cases hbi : bi = BPB - (left + 1)
        · rw [hbi]
          exact hbit
        · exact ballocBit_none h (by omega) (by omega) hlt hsize
      · cases h
    · omega

theorem bblock_add (sb : Superblock) {bi : Nat} (hdvd : BPB ∣ b) (hbi : bi < BPB) :
    sb.bblock (b + bi) = sb.bblock b ∧ (b + bi) % BPB = bi := by
  obtain ⟨q, rfl⟩ := hdvd
  have hpos : 0 < BPB := by decide
  refine ⟨?_, by rw [Nat.mul_add_mod, Nat.mod_eq_of_lt hbi]⟩
  rw [Superblock.bblock, Superblock.bblock, Nat.mul_add_div hpos, Nat.mul_div_cancel_left q hpos,
    Nat.div_eq_of_lt hbi, Nat.add_zero]

theorem used_img (hb : b < fs.sb.size) : fs.img.used b = (fs.blk (fs.sb.bblock b)).bit (b % BPB) := if_pos hb

theorem used_add {bi : Nat} (hdvd : BPB ∣ b) (hbi : bi < BPB) (hlt : b + bi < fs.sb.size) :
    fs.img.used (b + bi) = (fs.blk (fs.sb.bblock b)).bit bi := by
  obtain ⟨hblock, hmod⟩ := bblock_add fs.sb hdvd hbi
  rw [used_img hlt, hblock, hmod]

structure SameMem (fs fs' : Fs) : Prop where
  inode : fs'.inode = fs.inode
  sb : fs'.sb = fs.sb
  disksize : fs'.disksize = fs.disksize

/-- The pair is what `balloc` returns after taking block `r.1`. -/
structure Taken (fs : Fs) (r : Nat × Fs) : Prop where
  lt : r.1 < fs.sb.size
  free : fs.img.used r.1 = false
  super : r.2.Super
  img : r.2.img = (fs.img.setUsed r.1 true).write r.1 .zero
  mem : SameMem fs r.2

theorem Super.taken {bi : Nat} (hs : fs.Super) (hmeta : ∀ c < fs.sb.nmeta, fs.img.used c = true) (hdvd : BPB ∣ b)
    (hfound : ballocBit (fs.blk (fs.sb.bblock b)) fs.sb.size b BPB = some bi) :
    ∃ fs', (fs.logWrite (fs.sb.bblock b) ((fs.blk (fs.sb.bblock b)).setBit bi)).bzero ROOTDEV (b + bi) = .ok fs' ∧
      fs.Taken (b + bi, fs') := by
  obtain ⟨hbi, hlt, hbit⟩ := ballocBit_some hfound
  obtain ⟨hblock, hmod⟩ := bblock_add fs.sb hdvd hbi
  have hfree : fs.img.used (b + bi) = false := (used_add hdvd hbi hlt).trans hbit
  have hge : fs.sb.nmeta ≤ b + bi := by
    by_contra hcon
    rw [hmeta _ (by omega)] at hfree
    cases hfree
  have hbm := fs.sb.bblock_lt hlt
  have hstart := hs.ok.bmapstart_lt
  rw [hblock] at hbm
  have hs' : (fs.logWrite (fs.sb.bblock b) ((fs.blk (fs.sb.bblock b)).setBit bi)).Super := hs.logWrite (by omega) _
  refine ⟨_, ?_, hlt, hfree, hs'.logWrite (b := b + bi) (by omega) .zero, ?_, rfl, rfl, rfl⟩
  · rw [bzero, hs'.bread hlt]
    rfl
  · have hset : imgOf fs.sb (Function.update fs.blk _ _) = fs.img.setUsed (b + bi) true := imgOf_setBit hs.ok hlt
    rw [hblock, hmod] at hset
    exact (imgOf_write hs.ok hge .zero).trans (congrArg (fun g => Img.write g (b + bi) .zero) hset)

theorem ballocFrom_spec (hs : fs.Super) (hmeta : ∀ c < fs.sb.nmeta, fs.img.used c = true) :
    ∀ left b₀ : Nat, BPB ∣ b₀ → fs.sb.size < b₀ + left * BPB → (∀ c < b₀, c < fs.sb.size → fs.img.used c = true) →
      (fs.ballocFrom ROOTDEV left b₀).Spec fs.Taken fun o =>
        o = some "balloc: out of blocks" ∧ ∀ c < fs.sb.size, fs.img.used c = true
  | 0, b₀, _, hleft, hbelow => ⟨rfl, fun c hc => hbelow c (by omega) hc⟩
  | left + 1, b₀, hdvd, hleft, hbelow => by
    rw [ballocFrom]
    split
    · rename_i hlt
      have hbm := fs.sb.bblock_lt hlt
      rw [hs.bread (lt_of_lt_of_le hbm.2 hs.ok.fits), Outcome.ok_bind]
      split
      · rename_i bi hfound
        obtain ⟨fs', hz, htaken⟩ := hs.taken hmeta hdvd hfound
        rw [hz]
        exact htaken
      · rename_i hnone
        rw [Nat.succ_mul] at hleft
        refine ballocFrom_spec hs hmeta left (b₀ + BPB) (Dvd.dvd.add hdvd (dvd_refl BPB)) (by omega) fun c hc hsize => ?_
        by_cases hcb : c < b₀
        · exact hbelow c hcb hsize
        · -- A block of this bitmap block, which has no free bit.
          obtain ⟨bi, rfl⟩ := Nat.exists_eq_add_of_le (Nat.not_lt.mp hcb)
          have hbi : bi < BPB := by omega
          rw [used_add hdvd hbi hsize]
          exact ballocBit_none hnone (Nat.le_refl BPB) (by omega) hbi hsize
    · rename_i hge
      exact ⟨rfl, fun c hc => hbelow c (by omega) hc⟩

theorem balloc_spec (hs : fs.Super) (hmeta : ∀ c < fs.sb.nmeta, fs.img.used c = true) :
    (fs.balloc ROOTDEV).Spec fs.Taken fun o =>
      o = some "balloc: out of blocks" ∧ freeCount fs.sb.size fs.img.used = 0 := by
  refine (ballocFrom_spec hs hmeta _ 0 (dvd_zero BPB) ?_ fun c hc => absurd hc (Nat.not_lt_zero c)).mono (fun _ h => h) ?_
  · rw [Nat.zero_add, Nat.add_mul, Nat.one_mul]
    exact Nat.lt_div_mul_add (by decide)
  · rintro o ⟨ho, hall⟩
    refine ⟨ho, Nat.eq_zero_of_not_pos fun hpos => ?_⟩
    obtain ⟨c, hc, hfree⟩ := exists_free hpos
    rw [hall c hc] at hfree
    cases hfree

/-! ### `bfree` and `iupdate` -/

theorem bfree_ok (hs : fs.Super) (hb : b < fs.sb.size) (hused : fs.img.used b = true) :
    ∃ fs', fs.bfree ROOTDEV b = .ok fs' ∧ fs'.Super ∧ fs'.img = fs.img.setUsed b false ∧
      SameMem fs fs' := by
  have hbm := fs.sb.bblock_lt hb
  have hstart := hs.ok.bmapstart_lt
  have hfits := hs.ok.fits
  refine ⟨fs.logWrite (fs.sb.bblock b) ((fs.blk (fs.sb.bblock b)).clearBit (b % BPB)), ?_, hs.logWrite (by omega) _,
    imgOf_clearBit hs.ok hb, rfl, rfl, rfl⟩
  rw [used_img hb] at hused
  rw [bfree, readsb, hs.bread (by omega)]
  simp only [Outcome.ok_bind, Outcome.pure_eq, hs.block]
  rw [show ({ fs with sb := fs.sb } : Fs) = fs from rfl, hs.bread (by omega)]
  simp [hused]

theorem iupdate_ok (hs : fs.Super) (hdev : (fs.inode i).dev = ROOTDEV) (hi : (fs.inode i).inum < fs.sb.ninodes) :
    ∃ fs', fs.iupdate i = .ok fs' ∧ fs'.Super ∧ fs'.img = fs.img.setIno (fs.inode i).inum (fs.inode i).toDinode ∧
      SameMem fs fs' := by
  have hib := hs.ok.iblock_lt hi
  have hstart := hs.ok.bmapstart_lt
  have hfits := hs.ok.fits
  refine ⟨_, ?_, hs.logWrite (b := fs.sb.iblock (fs.inode i).inum) (by omega) _,
    imgOf_writeDinode hs.ok hi (fs.inode i).toDinode, rfl, rfl, rfl⟩
  rw [iupdate, hdev, hs.bread (by omega)]
  rfl

end Fs
end Xv6
