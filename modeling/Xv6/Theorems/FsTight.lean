import Xv6.Theorems.FsRuns

/-! A file has no blocks behind those that its size needs: `writei` takes blocks only for the bytes it writes, and the
    size grows with them. -/

namespace Xv6
open Bytes Ownership

/-- Behind its end a file has no blocks, and zeroes are read. -/
structure Img.Tight (g : Img) (j : Nat) : Prop where
  ptr : ∀ bn, bn < MAXFILE → Fs.blocks (g.ino j).size.toNat ≤ bn → g.ptr (blockPlace j bn) = 0
  byte : ∀ p, (g.ino j).size.toNat ≤ p → p < MAXFILE * BSIZE → g.byteAt j p = 0

namespace Fs
variable {fs fs' : Fs} {i : InodeIdx} {devsw : DevSw} {src : Nat → UInt8} {off n : UInt32}

theorem bmap_others (w : fs.Working i) {bn : Nat} (hbn : bn < MAXFILE) :
    (fs.bmap i bn).Ensures fun r => Mapped fs i (blockPlace (fs.inode i).inum bn) r ∧
      ∀ k, k ≠ bn → k < MAXFILE → (r.2.imgAt i).ptr (blockPlace (fs.inode i).inum k) = (fs.imgAt i).ptr (blockPlace (fs.inode i).inum k) := by
  have hne : ∀ k, k ≠ bn → k < MAXFILE → blockPlace (fs.inode i).inum k ≠ blockPlace (fs.inode i).inum bn := fun k hk hlt heq =>
    hk (blockPlace_inj hlt hbn heq).2
  by_cases hd : bn < NDIRECT
  · refine (bmap_direct_spec w hd).ensures.mono fun r hr => ⟨hr.1, fun k hk hlt => hr.2.1 _ (hne k hk hlt)⟩
  · refine (bmap_indirect_spec w hd hbn).ensures.mono fun r hr => ⟨hr.1, fun k hk hlt => ?_⟩
    exact hr.2.1 _ (hne k hk hlt) (blockPlace_ne_last _ _ _)

/-! ### New blocks -/

theorem data_imgAt_zero (fs : Fs) (i : InodeIdx) : (fs.imgAt i).data 0 = .zero := data_img_zero fs

theorem balloc_zero (fs : Fs) (dev : Nat) : (fs.balloc dev).Ensures fun r => r.2.blk r.1 = .zero := by
  have hfrom : ∀ left b : Nat, (fs.ballocFrom dev left b).Ensures fun r => r.2.blk r.1 = .zero := by
    intro left
    induction left with
    | zero => exact fun _ => trivial
    | succ left ih =>
      intro b
      rw [ballocFrom]
      split
      · refine (Outcome.ensures_true _).bind fun x _ => ?_
        split
        · rename_i bi _
          have hzero : ∀ fs : Fs, (fs.bzero dev (b + bi)).Ensures fun fs' => fs'.blk (b + bi) = .zero := fun fs =>
            (Outcome.ensures_true _).bind fun _ _ => Function.update_self ..
          exact (hzero _).bind fun _ h => h
        · exact ih _
      · trivial
  exact hfrom _ 0

theorem addrAlloc_zero {k : Fin (NDIRECT + 1)} (h : (fs.inode i).addrs k = 0) :
    (fs.addrAlloc i k).Ensures fun r => r.2.blk r.1 = .zero := by
  rw [addrAlloc, if_pos h]
  exact (balloc_zero fs _).bind fun _ h => h

theorem bmap_zero (w : fs.Working i) {bn : Nat} (hbn : bn < MAXFILE)
    (h : (fs.imgAt i).ptr (blockPlace (fs.inode i).inum bn) = 0) : (fs.bmap i bn).Ensures fun r => r.2.blk r.1 = .zero := by
  rw [bmap]
  split
  · rename_i hd
    rw [blockPlace_direct hd, Img.ptr, imgAt, Img.addr_setIno, if_neg w.type] at h
    exact addrAlloc_zero (UInt32.toNat_inj.mp h)
  · rename_i hd
    have hind : bn - NDIRECT < NINDIRECT := by
      simp only [MAXFILE] at hbn
      omega
    dsimp only
    rw [if_pos hind]
    rw [blockPlace_indirect hd] at h
    refine (addrAlloc_spec w INDIRECT).ensures.bind ?_
    rintro ⟨a, fs₁⟩ ⟨map, hother, -⟩
    have w₁ : fs₁.Working i := map.grown.work
    have hptr : (fs₁.imgAt i).ptr (.addr (fs.inode i).inum INDIRECT) = a := map.ptr
    have ha : (fs₁.imgAt i).addr (fs.inode i).inum INDIRECT = a := map.ptr
    have hane : a ≠ 0 := map.pos
    have hread := w₁.bread (p := .addr (fs.inode i).inum INDIRECT) (by rw [hptr]; exact hane)
    rw [hptr] at hread
    have hword : ((fs₁.imgAt i).data a).word 4 (4 * (bn - NDIRECT)) = 0 := by
      rw [← hother _ (by simp), Img.ptr_entry (by rw [ha]; exact hane), ha] at h
      simpa only [Fin.ofNat, Nat.mod_eq_of_lt hind] using h
    simp only [hread, Outcome.ok_bind, hword, if_true]
    rw [w₁.dev]
    refine ((balloc_spec w₁.super w₁.meta_used).ensures.and (balloc_zero fs₁ ROOTDEV)).bind ?_
    rintro ⟨b, fs₂⟩ ⟨t, hzero⟩
    -- The new block is not the indirect block, in which its number is stored.
    have hne : a ≠ b := by
      have := (w₁.inFlight t).fresh (.addr (fs.inode i).inum INDIRECT) (by rw [hptr]; exact hane)
      rwa [hptr] at this
    exact (Function.update_of_ne (Ne.symm hne) _ _).trans hzero

theorem bmap_bytes (w : fs.Working i) {bn : Nat} (hbn : bn < MAXFILE) :
    (fs.bmap i bn).Ensures fun r => Mapped fs i (blockPlace (fs.inode i).inum bn) r ∧ ∀ p, p < MAXFILE * BSIZE →
      (r.2.imgAt i).byteAt (fs.inode i).inum p = (fs.imgAt i).byteAt (fs.inode i).inum p := by
  by_cases h : (fs.imgAt i).ptr (blockPlace (fs.inode i).inum bn) = 0
  · refine ((bmap_others w hbn).and (bmap_zero w hbn h)).mono ?_
    rintro ⟨b, fs₁⟩ ⟨⟨map, hother⟩, hzero⟩
    refine ⟨map, fun p hp => ?_⟩
    have hpm : p / BSIZE < MAXFILE := Nat.div_lt_of_lt_mul (by rw [Nat.mul_comm]; exact hp)
    dsimp only at hother hzero ⊢
    by_cases hpb : p / BSIZE = bn
    · have hlo : fs₁.sb.nmeta ≤ b := by
        have hr := (map.grown.work.owned.range (blockPlace (fs.inode i).inum bn) (by rw [map.ptr]; exact map.pos)).1
        rwa [map.ptr] at hr
      have hdata : (fs₁.imgAt i).data b = .zero := (if_pos hlo).trans hzero
      have hptr : (fs₁.imgAt i).ptr (blockPlace (fs.inode i).inum bn) = b := map.ptr
      rw [Img.byteAt, Img.byteAt, hpb, h, hptr, hdata]
      rw [data_imgAt_zero]
    · have hsame := hother _ hpb hpm
      rw [Img.byteAt, Img.byteAt, hsame]
      by_cases hz : (fs.imgAt i).ptr (blockPlace (fs.inode i).inum (p / BSIZE)) = 0
      · rw [hz]
        rw [data_imgAt_zero, data_imgAt_zero]
      · rw [map.grown.data _ _ hz]
  · obtain hold := bmap_old w hbn h
    refine ((bmap_others w hbn).and (Outcome.ensures_true _)).mono fun r hr => ⟨hr.1.1, fun p _ => ?_⟩
    rw [hr.1.1.old h]

/-! ### `writei` -/

theorem writeiLoop_beyond {off n : Nat} (w : fs.Working i) (hmax : off + n ≤ MAXFILE * BSIZE) :
    (fs.writeiLoop i src n n off 0).Ensures fun r => ∀ bn, bn < MAXFILE → off + n ≤ bn * BSIZE →
      (r.2.imgAt i).ptr (blockPlace (fs.inode i).inum bn) = (fs.imgAt i).ptr (blockPlace (fs.inode i).inum bn) := by
  refine writeiLoop_rounds (R := fun fs fs' off len => ∀ bn, bn < MAXFILE → off + len ≤ bn * BSIZE →
    (fs'.imgAt i).ptr (blockPlace (fs.inode i).inum bn) = (fs.imgAt i).ptr (blockPlace (fs.inode i).inum bn))
    (fun _ _ _ _ _ => rfl) ?_ n fs off 0 w (Nat.sub_le _ _) (Nat.zero_le _) hmax
  intro fs fs₁ fs₂ fs' b off m len hr hm _ _ hrest bn hbn hle
  obtain ⟨⟨_, hwrote⟩, hsame⟩ := hr.wrote
  have hlater := hrest bn hbn (by omega)
  have hne : bn ≠ off / BSIZE := by
    rintro rfl
    have := Nat.div_mul_le_self off BSIZE
    have := hr.pos
    omega
  rw [hwrote.inum, hsame] at hlater
  rw [hlater]
  exact ((bmap_others hr.work hr.bound).of_eq_ok hr.bmap).2 bn hne hbn

theorem writeiLoop_rest {off n : Nat} (w : fs.Working i) (hmax : off + n ≤ MAXFILE * BSIZE) :
    (fs.writeiLoop i src n n off 0).Ensures fun r => ∀ p, off + n ≤ p → p < MAXFILE * BSIZE →
      (r.2.imgAt i).byteAt (fs.inode i).inum p = (fs.imgAt i).byteAt (fs.inode i).inum p := by
  refine writeiLoop_rounds (R := fun fs fs' off len => ∀ p, off + len ≤ p → p < MAXFILE * BSIZE →
    (fs'.imgAt i).byteAt (fs.inode i).inum p = (fs.imgAt i).byteAt (fs.inode i).inum p)
    (fun _ _ _ _ _ => rfl) ?_ n fs off 0 w (Nat.sub_le _ _) (Nat.zero_le _) hmax
  intro fs fs₁ fs₂ fs' b off m len hr hm _ _ hrest p hle hp
  have hinum := hr.map.grown.inum
  -- Seen from behind `bmap`, where the block is there, only the bytes of the round change.
  have map₁ : Mapped fs₁ i (blockPlace (fs₁.inode i).inum (off / BSIZE)) (b, fs₁) :=
    ⟨.refl hr.map.grown.work, by rw [hinum]; exact hr.map.ptr, hr.map.pos, fun _ => rfl⟩
  obtain ⟨src, rfl⟩ := hr.store
  obtain ⟨hwrote, hsame, -⟩ := map₁.wrote src hr.pos hr.fits hr.bound
  have hround := hwrote.keptBytes p (Or.inr (by omega)) hp
  have hlater := hrest p (by omega) hp
  rw [hwrote.inum, hinum] at hlater
  rw [hlater, ← ((bmap_bytes hr.work hr.bound).of_eq_ok hr.bmap).2 p hp]
  by_cases hz : (fs₁.imgAt i).ptr (blockPlace (fs₁.inode i).inum (p / BSIZE)) = 0
  · rw [hinum] at hz
    rw [Img.byteAt, Img.byteAt, hsame, hz, data_imgAt_zero, data_imgAt_zero]
  · rw [← hinum]
    exact hround hz

theorem writei_tight (wf : fs.Wf) (hl : fs.Locked i) (h : ∀ j, fs.img.Tight j) :
    (fs.writei devsw i src off n).Ensures fun r => ∀ j, r.2.img.Tight j := by
  refine writei_of_accept (P := fun fs => ∀ j, fs.img.Tight j) h fun htype hrej => ?_
  refine (writei_stored wf hl htype hrej).ensures.mono ?_
  rintro ⟨r, fs'⟩ ⟨-, fs₁, size, hloop, hw, st, hsize, -⟩ j
  simp only [Rejects, not_or, not_lt, not_le] at hrej
  have heq := wf.imgAt_eq hl
  have hinum := hw.inum
  dsimp only at st ⊢
  by_cases hj : j = (fs.inode i).inum
  · subst hj
    have hino : (fs'.img.ino (fs.inode i).inum).size.toNat = max (fs.inode i).size.toNat (off.toNat + n.toNat) := by
      rw [← hsize, ← hinum, st.ino_self]
    have hsync := (wf.synced i hl.1 hl.2.2).1
    refine ⟨fun bn hmax hbn => ?_, fun p hp hmax => ?_⟩
    · rw [hino] at hbn
      have hle : off.toNat + n.toNat ≤ bn * BSIZE := by
        have : ¬bn * BSIZE < max (fs.inode i).size.toNat (off.toNat + n.toNat) := fun h => absurd (lt_blocks.mpr h) (not_lt.mpr hbn)
        omega
      rw [st.ptr, (writeiLoop_beyond (wf.working hl) hrej.2.2).of_eq_ok hloop bn hmax hle, heq]
      refine (h _).ptr bn hmax ?_
      rw [hsync]
      refine le_trans ?_ hbn
      simp only [blocks, BSIZE]
      omega
    · rw [hino] at hp
      rw [st.byteAt, (writeiLoop_rest (wf.working hl) hrej.2.2).of_eq_ok hloop p (by omega) hmax, heq]
      exact (h _).byte p (by rw [hsync]; omega) hmax
  · have hino : fs'.img.ino j = fs.img.ino j := by rw [st.ino_of_ne (by rw [hinum]; exact hj), hw.ino]
    refine ⟨fun bn hmax hbn => ?_, fun p hp hmax => ?_⟩
    · rw [st.ptr, hw.others _ (by simpa using hj), heq]
      exact (h j).ptr bn hmax (hino ▸ hbn)
    · rw [st.byteAt, hw.byteAt_other wf hl hj]
      exact (h j).byte p (hino ▸ hp) hmax

end Fs
end Xv6
