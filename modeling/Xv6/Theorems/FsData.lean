import Xv6.Theorems.FsBmap

/-! `readi` and `writei`: what they do to the bytes of a file. -/

namespace Xv6
open Bytes Ownership
open Outcome (ok_bind)

namespace Fs
variable {fs fs₁ fs₂ : Fs} {i : InodeIdx} {b bn : Nat}

/-! ### Blocks that are there -/

theorem bmap_old (w : fs.Working i) (hbn : bn < MAXFILE)
    (h : (fs.imgAt i).ptr (blockPlace (fs.inode i).inum bn) ≠ 0) :
    fs.bmap i bn = .ok ((fs.imgAt i).ptr (blockPlace (fs.inode i).inum bn), fs) := by
  have hneed : (fs.imgAt i).need (fs.inode i).inum bn = 0 := by
    rw [Img.need, Img.missing_of_ne h, Nat.zero_add]
    split
    · rfl
    · rename_i hd
      rw [blockPlace_indirect hd] at h
      exact Img.missing_of_ne (p := .addr _ INDIRECT) fun hz => h (Img.ptr_entry_zero hz)
  have hok : ∃ r, fs.bmap i bn = .ok r ∧ Mapped fs i (blockPlace (fs.inode i).inum bn) r := by
    by_cases hd : bn < NDIRECT
    · obtain ⟨r, hr, m, -⟩ := (bmap_direct_spec w hd).exists_ok fun o ho => by omega
      exact ⟨r, hr, m⟩
    · obtain ⟨r, hr, m, -⟩ := (bmap_indirect_spec w hd hbn).exists_ok fun o ho => by omega
      exact ⟨r, hr, m⟩
  obtain ⟨⟨b, fs₁⟩, hr, m⟩ := hok
  obtain rfl : fs₁ = fs := m.old h
  rw [hr]
  exact congrArg (fun c => Outcome.ok (c, fs₁)) m.ptr.symm

/-! ### `readi` -/

theorem div_mod_add {off m j : Nat} (hj : j < m) (hm : m ≤ BSIZE - off % BSIZE) :
    (off + j) / BSIZE = off / BSIZE ∧ (off + j) % BSIZE = off % BSIZE + j := by
  simp only [BSIZE] at *
  omega

theorem readiLoop_eq (w : fs.Working i) {lim n : Nat} (hlim : lim ≤ MAXFILE * BSIZE)
    (hall : ∀ bn, bn * BSIZE < lim → (fs.imgAt i).ptr (blockPlace (fs.inode i).inum bn) ≠ 0) :
    ∀ left off tot : Nat, n - tot ≤ left → off + (n - tot) ≤ lim →
      fs.readiLoop i n left off tot =
        .ok ((List.range (n - tot)).map fun q => (fs.imgAt i).byteAt (fs.inode i).inum (off + q), fs)
  | 0, off, tot, hleft, _ => by
    rw [readiLoop, Nat.le_zero.mp hleft]
    rfl
  | left + 1, off, tot, hleft, hoff => by
    rw [readiLoop]
    split
    · rename_i hlt
      have hbn : off / BSIZE * BSIZE < lim := lt_of_le_of_lt (Nat.div_mul_le_self off BSIZE) (by omega)
      have hmax : off / BSIZE < MAXFILE := Nat.lt_of_mul_lt_mul_right (lt_of_lt_of_le hbn hlim)
      have hptr := hall _ hbn
      rw [bmap_old w hmax hptr, ok_bind]
      simp only [w.bread hptr, ok_bind]
      generalize hm : min (n - tot) (BSIZE - off % BSIZE) = m
      have hmod : off % BSIZE < BSIZE := Nat.mod_lt off (by decide)
      rw [readiLoop_eq w hlim hall left (off + m) (tot + m) (by omega) (by omega), ok_bind]
      have hsplit : n - tot = m + (n - (tot + m)) := by omega
      rw [hsplit, List.range_add, List.map_append, List.map_map]
      refine congrArg (fun l => Outcome.ok (l, fs)) (congrArg₂ (· ++ ·) ?_ ?_)
      · refine List.map_congr_left fun q hq => ?_
        obtain ⟨hdiv, hmod'⟩ := div_mod_add (List.mem_range.mp hq) (show m ≤ BSIZE - off % BSIZE by omega)
        rw [Img.byteAt, hdiv, hmod']
      · refine List.map_congr_left fun q _ => ?_
        simp only [Function.comp_apply, Nat.add_assoc]
    · rename_i hge
      rw [Nat.sub_eq_zero_of_le (Nat.not_lt.mp hge)]
      rfl

/-! ### `writei` -/

/-- The holder of slot `i` has written `len` bytes from `off` on into its file. -/
structure Wrote (fs fs' : Fs) (i : InodeIdx) (off len : Nat) (src : Nat → UInt8) : Prop extends Extends fs fs' i where
  otherData : ∀ j n, j ≠ (fs.inode i).inum → (fs.imgAt i).ptr (blockPlace j n) ≠ 0 →
    (fs'.imgAt i).data ((fs.imgAt i).ptr (blockPlace j n)) = (fs.imgAt i).data ((fs.imgAt i).ptr (blockPlace j n))
  bytes : ∀ p, off ≤ p → p < off + len → (fs'.imgAt i).byteAt (fs.inode i).inum p = src (p - off)
  alloc : ∀ p, off ≤ p → p < off + len → (fs'.imgAt i).ptr (blockPlace (fs.inode i).inum (p / BSIZE)) ≠ 0
  keptBytes : ∀ p, p < off ∨ off + len ≤ p → p < MAXFILE * BSIZE →
    (fs.imgAt i).ptr (blockPlace (fs.inode i).inum (p / BSIZE)) ≠ 0 →
      (fs'.imgAt i).byteAt (fs.inode i).inum p = (fs.imgAt i).byteAt (fs.inode i).inum p
  inPlace : (∀ p, off ≤ p → p < off + len → (fs.imgAt i).ptr (blockPlace (fs.inode i).inum (p / BSIZE)) ≠ 0) →
    fs'.inode = fs.inode

theorem Wrote.refl (w : fs.Working i) (off : Nat) (src : Nat → UInt8) : Wrote fs fs i off 0 src :=
  ⟨.refl w, fun _ _ _ _ => rfl, fun p h h' => by omega, fun p h h' => by omega, fun _ _ _ _ => rfl, fun _ => rfl⟩

theorem Wrote.trans {off m len : Nat} {src : Nat → UInt8} (h : Wrote fs fs₁ i off m src)
    (h' : Wrote fs₁ fs₂ i (off + m) (len - m) fun q => src (m + q)) (hm : m ≤ len) (hmax : off + len ≤ MAXFILE * BSIZE) :
    Wrote fs fs₂ i off len src := by
  have hinum := h.inum
  obtain ⟨hext, hother, hbytes, halloc, hkept, hin⟩ := h'
  rw [hinum] at hother hbytes halloc hkept hin
  refine ⟨h.toExtends.trans hext, fun j n hj hp => ?_, fun p hp hp' => ?_, fun p hp hp' => ?_, fun p hp hmax' hptr => ?_,
    fun hall => ?_⟩
  · have hk := h.kept _ hp
    have := hother j n hj (by rw [hk]; exact hp)
    rw [hk] at this
    exact this.trans (h.otherData j n hj hp)
  · by_cases hpm : p < off + m
    · rw [hkept p (Or.inl hpm) (by omega) (h.alloc p hp hpm)]
      exact h.bytes p hp hpm
    · rw [hbytes p (by omega) (by omega)]
      exact congrArg src (by omega)
  · by_cases hpm : p < off + m
    · rw [hext.kept _ (h.alloc p hp hpm)]
      exact h.alloc p hp hpm
    · exact halloc p (by omega) (by omega)
  · rw [hkept p (by omega) hmax' (by rw [h.kept _ hptr]; exact hptr)]
    exact h.keptBytes p (by omega) hmax' hptr
  · have hfirst := h.inPlace fun p hp hp' => hall p hp (by omega)
    rw [← hfirst]
    refine hin fun p hp hp' => ?_
    rw [h.kept _ (hall p (by omega) (by omega))]
    exact hall p (by omega) (by omega)

theorem Mapped.wrote {off m : Nat} (src : Nat → UInt8) (hpos : 0 < m) (hm : m ≤ BSIZE - off % BSIZE)
    (hmax : off / BSIZE < MAXFILE) (map : Mapped fs i (blockPlace (fs.inode i).inum (off / BSIZE)) (b, fs₁)) :
    Wrote fs (fs₁.logWrite b (((fs₁.imgAt i).data b).setBytes (off % BSIZE) ((List.range m).map src))) i off m src ∧
      ((fs₁.logWrite b (((fs₁.imgAt i).data b).setBytes (off % BSIZE) ((List.range m).map src))).imgAt i).ptr =
        (fs₁.imgAt i).ptr ∧
      (fs₁.logWrite b (((fs₁.imgAt i).data b).setBytes (off % BSIZE) ((List.range m).map src))).free = fs₁.free := by
  have w₁ : fs₁.Working i := map.grown.work
  have hptr : (fs₁.imgAt i).ptr (blockPlace (fs.inode i).inum (off / BSIZE)) = b := map.ptr
  have hb : b ≠ 0 := map.pos
  have hpne : (fs₁.imgAt i).ptr (blockPlace (fs.inode i).inum (off / BSIZE)) ≠ 0 := hptr ▸ hb
  have hlo : fs₁.sb.nmeta ≤ b := hptr ▸ (w₁.owned.range _ hpne).1
  generalize hx : ((fs₁.imgAt i).data b).setBytes (off % BSIZE) ((List.range m).map src) = x
  have hmod : off % BSIZE < BSIZE := Nat.mod_lt off (by decide)
  have himg : (fs₁.logWrite b x).imgAt i = (fs₁.imgAt i).write b x := imgAt_logWrite w₁.super hlo x
  obtain ⟨howned, hsame⟩ := w₁.owned.write hpne x
  rw [hptr] at howned hsame
  have hsame' : ∀ p, ((fs₁.logWrite b x).imgAt i).ptr p = (fs₁.imgAt i).ptr p := fun p => by rw [himg, hsame]
  have hfree : (fs₁.logWrite b x).free = fs₁.free := by
    rw [free, free, img_logWrite w₁.super hlo]
    rfl
  have w₂ : (fs₁.logWrite b x).Working i := by
    have := w₁.logWrite hpne (x := x) (by rw [hptr]; exact howned)
    rwa [hptr] at this
  have hbyte : ∀ o, o < BSIZE → x.byte o =
      if off % BSIZE ≤ o ∧ o < off % BSIZE + m then src (o - off % BSIZE) else ((fs₁.imgAt i).data b).byte o := by
    intro o ho
    rw [← hx, Buffer.byte_setBytes]
    by_cases hin : off % BSIZE ≤ o ∧ o < off % BSIZE + m
    · have hlt : o - off % BSIZE < m := by omega
      rw [if_pos ⟨ho, hin.1, by simpa using hin.2⟩, if_pos hin]
      simp [List.getD, hlt]
    · rw [if_neg hin, if_neg (by simp only [List.length_map, List.length_range]; omega)]
  have hdiv : ∀ p, p / BSIZE = off / BSIZE → (p / BSIZE * BSIZE + p % BSIZE = p ∧ off / BSIZE * BSIZE + off % BSIZE = off ∧
      p / BSIZE * BSIZE = off / BSIZE * BSIZE) := fun p hp =>
    ⟨Nat.div_add_mod' p BSIZE, Nat.div_add_mod' off BSIZE, by rw [hp]⟩
  -- A byte of the block that was mapped.
  have hat : ∀ p, p / BSIZE = off / BSIZE → ((fs₁.logWrite b x).imgAt i).byteAt (fs.inode i).inum p =
      if off ≤ p ∧ p < off + m then src (p - off) else ((fs₁.imgAt i).data b).byte (p % BSIZE) := by
    intro p hp
    obtain ⟨h1, h2, h3⟩ := hdiv p hp
    rw [Img.byteAt, hp, hsame', hptr, himg, Img.data_write_self, hbyte _ (Nat.mod_lt p (by decide))]
    by_cases hin : off ≤ p ∧ p < off + m
    · rw [if_pos hin, if_pos (by omega)]
      exact congrArg src (by omega)
    · rw [if_neg hin, if_neg (by omega)]
  have hrange : ∀ p, off ≤ p → p < off + m → p / BSIZE = off / BSIZE := fun p hp hp' => by
    obtain ⟨q, rfl⟩ := Nat.exists_eq_add_of_le hp
    exact (div_mod_add (by omega) hm).1
  refine ⟨⟨⟨w₂, map.grown.sb, map.grown.disksize, map.grown.slots, map.grown.slot, ?_, fun p hp => ?_, fun p hp => ?_⟩,
    fun j n hj hp => ?_, fun p hp hp' => ?_, fun p hp hp' => ?_, fun p hp hmax' hp0 => ?_, fun hall => ?_⟩, funext hsame', hfree⟩
  · rw [img_logWrite w₁.super hlo]
    exact map.grown.ino
  · rw [hsame']
    exact map.grown.kept p hp
  · rw [hsame']
    exact map.grown.others p hp
  · have hk := map.grown.kept _ hp
    have hne : (fs.imgAt i).ptr (blockPlace j n) ≠ b := fun heq => by
      have hplace := w₁.owned.inj (blockPlace j n) (blockPlace (fs.inode i).inum (off / BSIZE))
        (by rw [hk]; exact hp) (by rw [hk, hptr]; exact heq)
      exact hj (by simpa using congrArg Place.inum hplace)
    rw [himg, Img.data_write_of_ne hne]
    exact map.grown.data j n hp
  · rw [hat p (hrange p hp hp'), if_pos ⟨hp, hp'⟩]
  · rw [hsame', hrange p hp hp']
    exact hpne
  · by_cases hpo : p / BSIZE = off / BSIZE
    · rw [hpo] at hp0
      obtain rfl : fs₁ = fs := map.old hp0
      rw [hat p hpo, if_neg (by omega), Img.byteAt, hpo, hptr]
    · have hk := map.grown.kept _ hp0
      have hpmax : p / BSIZE < MAXFILE := Nat.div_lt_of_lt_mul (by rw [Nat.mul_comm]; exact hmax')
      have hne : (fs.imgAt i).ptr (blockPlace (fs.inode i).inum (p / BSIZE)) ≠ b := fun heq => by
        have hplace := w₁.owned.inj _ (blockPlace (fs.inode i).inum (off / BSIZE)) (by rw [hk]; exact hp0)
          (by rw [hk, hptr]; exact heq)
        exact hpo (blockPlace_inj hpmax hmax hplace).2
      rw [Img.byteAt, hsame', hk, himg, Img.data_write_of_ne hne, map.grown.data _ _ hp0]
      rfl
  · obtain rfl : fs₁ = fs := map.old (hall off (Nat.le_refl off) (by omega))
    rfl

theorem writeiLoop_spec {nb n : Nat} {src : Nat → UInt8} (hnb : nb ≤ MAXFILE) :
    ∀ (left : Nat) (fs : Fs) (off tot : Nat), fs.Working i → n - tot ≤ left → tot ≤ n → off + (n - tot) ≤ nb * BSIZE →
      (fs.writeiLoop i src n left off tot).Spec
        (fun r => r.1 = off + (n - tot) ∧ Wrote fs r.2 i off (n - tot) (fun q => src (tot + q)) ∧
          r.2.free + (fs.imgAt i).lacking (fs.inode i).inum nb = fs.free + (r.2.imgAt i).lacking (fs.inode i).inum nb)
        fun o => o = some "balloc: out of blocks" ∧ fs.free < (fs.imgAt i).lacking (fs.inode i).inum nb
  | 0, fs, off, tot, w, hleft, _, _ => by
    rw [writeiLoop, Nat.le_zero.mp hleft]
    exact ⟨rfl, .refl w off _, rfl⟩
  | left + 1, fs, off, tot, w, hleft, htot, hoff => by
    rw [writeiLoop]
    split
    · rename_i hlt
      have hbn : off / BSIZE < nb := Nat.div_lt_of_lt_mul (by rw [Nat.mul_comm]; omega)
      refine Outcome.Spec.bind (bmap_spec w hbn hnb) ?_
      rintro ⟨b, fs₁⟩ ⟨map, hcount⟩
      have w₁ : fs₁.Working i := map.grown.work
      have hptr : (fs₁.imgAt i).ptr (blockPlace (fs.inode i).inum (off / BSIZE)) = b := map.ptr
      have hread := w₁.bread (p := blockPlace (fs.inode i).inum (off / BSIZE)) (by rw [hptr]; exact map.pos)
      rw [hptr] at hread
      simp only [hread, ok_bind]
      generalize hm : min (n - tot) (BSIZE - off % BSIZE) = m
      have hmod : off % BSIZE < BSIZE := Nat.mod_lt off (by decide)
      obtain ⟨hwrote, hsame, hfree⟩ := map.wrote (m := m) (fun q => src (tot + q)) (by omega) (by omega) (by omega)
      generalize hfs₂ : fs₁.logWrite b
        (Buffer.setBytes ((fs₁.imgAt i).data b) (off % BSIZE) ((List.range m).map fun q => src (tot + q))) = fs₂
      rw [hfs₂] at hwrote hsame hfree
      have hlack : (fs₂.imgAt i).lacking (fs.inode i).inum nb = (fs₁.imgAt i).lacking (fs.inode i).inum nb := by
        simp only [Img.lacking, Img.missing, hsame]
      refine (writeiLoop_spec hnb left fs₂ (off + m) (tot + m) hwrote.work (by omega) (by omega) (by omega)).mono ?_ ?_
      · rintro ⟨off', fs'⟩ ⟨hoff', hrest, hcount'⟩
        rw [hwrote.inum, hlack, hfree] at hcount'
        dsimp only at hoff' hcount hcount' ⊢
        refine ⟨by omega, hwrote.trans ?_ (by omega) ?_, by omega⟩
        · have hlen : n - (tot + m) = n - tot - m := by omega
          rw [hlen] at hrest
          simpa only [Nat.add_assoc] using hrest
        · exact hoff.trans (Nat.mul_le_mul_right BSIZE hnb)
      · rintro o ⟨ho, hfull⟩
        rw [hwrote.inum, hlack, hfree] at hfull
        dsimp only at hcount
        exact ⟨ho, by omega⟩
    · rename_i hge
      rw [Nat.sub_eq_zero_of_le (Nat.not_lt.mp hge)]
      exact ⟨rfl, .refl w off _, rfl⟩

/-- A round of the loop: `bmap` gives a block of the file, and `m` bytes of it are replaced. -/
structure Round (fs fs₁ fs₂ : Fs) (i : InodeIdx) (b off m : Nat) : Prop where
  work : fs.Working i
  bound : off / BSIZE < MAXFILE
  pos : 0 < m
  fits : m ≤ BSIZE - off % BSIZE
  bmap : fs.bmap i (off / BSIZE) = .ok (b, fs₁)
  map : Mapped fs i (blockPlace (fs.inode i).inum (off / BSIZE)) (b, fs₁)
  store : ∃ src, fs₂ = fs₁.logWrite b (((fs₁.imgAt i).data b).setBytes (off % BSIZE) ((List.range m).map src))

theorem Round.wrote {off m : Nat} (h : Round fs fs₁ fs₂ i b off m) :
    (∃ src, Wrote fs fs₂ i off m src) ∧ (fs₂.imgAt i).ptr = (fs₁.imgAt i).ptr := by
  obtain ⟨src, rfl⟩ := h.store
  obtain ⟨hwrote, hsame, -⟩ := h.map.wrote src h.pos h.fits h.bound
  exact ⟨⟨src, hwrote⟩, hsame⟩

theorem writeiLoop_rounds {n : Nat} {src : Nat → UInt8} {R : Fs → Fs → Nat → Nat → Prop} (hrefl : ∀ fs off, R fs fs off 0)
    (hround : ∀ {fs fs₁ fs₂ fs' : Fs} {b off m len : Nat}, Round fs fs₁ fs₂ i b off m → m ≤ len → off + len ≤ MAXFILE * BSIZE →
      Extends fs₂ fs' i → R fs₂ fs' (off + m) (len - m) → R fs fs' off len) :
    ∀ (left : Nat) (fs : Fs) (off tot : Nat), fs.Working i → n - tot ≤ left → tot ≤ n → off + (n - tot) ≤ MAXFILE * BSIZE →
      (fs.writeiLoop i src n left off tot).Ensures fun r => R fs r.2 off (n - tot)
  | 0, fs, off, tot, _, hleft, _, _ => by
    rw [writeiLoop, Nat.le_zero.mp hleft]
    exact hrefl fs off
  | left + 1, fs, off, tot, w, hleft, htot, hoff => by
    rw [writeiLoop]
    split
    · rename_i hlt
      have hbn : off / BSIZE < MAXFILE := Nat.div_lt_of_lt_mul (by rw [Nat.mul_comm]; omega)
      refine Outcome.ensures_iff.mpr fun r h => ?_
      obtain ⟨⟨b, fs₁⟩, hbmap, hrest⟩ := Outcome.bind_eq_ok.mp h
      obtain ⟨map, -⟩ := (bmap_spec w hbn (le_refl MAXFILE)).of_eq_ok hbmap
      have hptr : (fs₁.imgAt i).ptr (blockPlace (fs.inode i).inum (off / BSIZE)) = b := map.ptr
      have hread := map.grown.work.bread (p := blockPlace (fs.inode i).inum (off / BSIZE)) (by rw [hptr]; exact map.pos)
      rw [hptr] at hread
      dsimp only at hrest
      rw [hread, ok_bind] at hrest
      generalize hm : min (n - tot) (BSIZE - off % BSIZE) = m at hrest
      have hmod : off % BSIZE < BSIZE := Nat.mod_lt off (by decide)
      have hr : Round fs fs₁ _ i b off m := ⟨w, hbn, by omega, by omega, hbmap, map, fun q => src (tot + q), rfl⟩
      obtain ⟨_, hwrote⟩ := hr.wrote.1
      have hspec := @writeiLoop_spec i MAXFILE n src (le_refl MAXFILE) left _ (off + m) (tot + m) hwrote.work (by omega) (by omega) (by omega)
      have hlater := @writeiLoop_rounds n src R hrefl hround left _ (off + m) (tot + m) hwrote.work (by omega) (by omega) (by omega)
      refine hround hr (by omega) hoff (hspec.of_eq_ok hrest).2.1.toExtends ?_
      rw [show n - tot - m = n - (tot + m) by omega]
      exact hlater.of_eq_ok hrest
    · rename_i hge
      rw [Nat.sub_eq_zero_of_le (Nat.not_lt.mp hge)]
      exact hrefl fs off

end Fs
end Xv6
