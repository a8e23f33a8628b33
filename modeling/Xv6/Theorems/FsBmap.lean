import Mathlib.Algebra.BigOperators.Group.Finset.Basic
import Xv6.Theorems.FsAlloc

/-! `bmap`: the blocks of a file are found, and the missing ones taken from the free blocks without touching
    what any file contains. -/

namespace Xv6
open Bytes Ownership
open Function (update)

namespace Img

def missing (g : Img) (p : Place) : Nat := if g.ptr p = 0 then 1 else 0

theorem missing_of_ne {g : Img} {p : Place} (h : g.ptr p ≠ 0) : g.missing p = 0 := if_neg h

theorem missing_of_eq {g : Img} {p : Place} (h : g.ptr p = 0) : g.missing p = 1 := if_pos h

/-- The blocks to be allocated for the `bn`th block of file `i`: itself and its indirect block. -/
def need (g : Img) (i bn : Nat) : Nat :=
  g.missing (blockPlace i bn) + if bn < NDIRECT then 0 else g.missing (.addr i INDIRECT)

/-- The blocks that file `i` lacks of its first `nb` blocks, the indirect block counted. -/
def lacking (g : Img) (i nb : Nat) : Nat :=
  ∑ bn ∈ Finset.range nb, g.missing (blockPlace i bn) +
    if NDIRECT < nb then g.missing (.addr i INDIRECT) else 0

theorem lacking_add_need (g g' : Img) {i bn nb : Nat} (hbn : bn < nb) (hnb : nb ≤ MAXFILE)
    (hself : g'.ptr (blockPlace i bn) ≠ 0)
    (hlast : if bn < NDIRECT then g'.ptr (.addr i INDIRECT) = g.ptr (.addr i INDIRECT)
      else g'.ptr (.addr i INDIRECT) ≠ 0)
    (hother : ∀ n, n ≠ bn → n < MAXFILE → g'.ptr (blockPlace i n) = g.ptr (blockPlace i n)) :
    g'.lacking i nb + g.need i bn = g.lacking i nb := by
  have hmem : bn ∈ Finset.range nb := Finset.mem_range.mpr hbn
  have hsum : ∑ n ∈ (Finset.range nb).erase bn, g'.missing (blockPlace i n) =
      ∑ n ∈ (Finset.range nb).erase bn, g.missing (blockPlace i n) := by
    refine Finset.sum_congr rfl fun n hn => ?_
    rw [Finset.mem_erase, Finset.mem_range] at hn
    rw [missing, missing, hother n hn.1 (by omega)]
  unfold lacking need
  rw [← Finset.add_sum_erase _ _ hmem, ← Finset.add_sum_erase (Finset.range nb) _ hmem, hsum, missing_of_ne hself]
  by_cases hd : bn < NDIRECT
  · rw [if_pos hd] at hlast
    have heq : g'.missing (.addr i INDIRECT) = g.missing (.addr i INDIRECT) := by
      rw [missing, missing, hlast]
    rw [if_pos hd, heq]
    omega
  · rw [if_neg hd] at hlast
    rw [if_neg hd, missing_of_ne hlast, if_pos (show NDIRECT < nb by omega), if_pos (show NDIRECT < nb by omega)]
    omega

theorem need_le_lacking {g : Img} {i bn nb : Nat} (hbn : bn < nb) : g.need i bn ≤ g.lacking i nb := by
  have hle := Finset.single_le_sum (f := fun n => g.missing (blockPlace i n)) (fun n _ => Nat.zero_le _)
    (Finset.mem_range.mpr hbn)
  unfold lacking need
  split
  · omega
  · rw [if_pos (show NDIRECT < nb by omega)]
    omega

theorem setIno_setIno (g : Img) (i : Nat) (d d' : Dinode) : (g.setIno i d).setIno i d' = g.setIno i d' := by
  simp [setIno]

end Img

namespace Fs
variable {fs fs' fs'' : Fs} {b bn : Nat} {i : InodeIdx}

def free (fs : Fs) : Nat := freeCount fs.sb.size fs.img.used

/-- A state in the middle of an operation on the file of slot `i`. -/
structure Working (fs : Fs) (i : InodeIdx) : Prop where
  super : fs.Super
  dev : (fs.inode i).dev = ROOTDEV
  inum : (fs.inode i).inum < fs.sb.ninodes
  type : (fs.inode i).type ≠ 0
  owned : (fs.imgAt i).Owned fs.sb ∅

/-- From `fs` to `fs'` the file of slot `i` may have got blocks, and no block has gone to another place. -/
structure Extends (fs fs' : Fs) (i : InodeIdx) : Prop where
  work : fs'.Working i
  sb : fs'.sb = fs.sb
  disksize : fs'.disksize = fs.disksize
  slots : ∀ j, j ≠ i → fs'.inode j = fs.inode j
  slot : fs'.inode i = { fs.inode i with addrs := (fs'.inode i).addrs }
  ino : fs'.img.ino = fs.img.ino
  kept : ∀ p, (fs.imgAt i).ptr p ≠ 0 → (fs'.imgAt i).ptr p = (fs.imgAt i).ptr p
  others : ∀ p, p.inum ≠ (fs.inode i).inum → (fs'.imgAt i).ptr p = (fs.imgAt i).ptr p

theorem Extends.inum (h : Extends fs fs' i) : (fs'.inode i).inum = (fs.inode i).inum := by rw [h.slot]

theorem Extends.refl (w : fs.Working i) : Extends fs fs i :=
  ⟨w, rfl, rfl, fun _ _ => rfl, rfl, rfl, fun _ _ => rfl, fun _ _ => rfl⟩

theorem Extends.trans (h : Extends fs fs' i) (h' : Extends fs' fs'' i) : Extends fs fs'' i where
  work := h'.work
  sb := h'.sb.trans h.sb
  disksize := h'.disksize.trans h.disksize
  slots := fun j hj => (h'.slots j hj).trans (h.slots j hj)
  slot := by
    rw [h'.slot, h.slot]
  ino := h'.ino.trans h.ino
  kept := fun p hp => (h'.kept p (by rw [h.kept p hp]; exact hp)).trans (h.kept p hp)
  others := fun p hp => (h'.others p (by rw [h.inum]; exact hp)).trans (h.others p hp)

structure Grown (fs fs' : Fs) (i : InodeIdx) : Prop extends Extends fs fs' i where
  data : ∀ j n, (fs.imgAt i).ptr (blockPlace j n) ≠ 0 →
    (fs'.imgAt i).data ((fs.imgAt i).ptr (blockPlace j n)) = (fs.imgAt i).data ((fs.imgAt i).ptr (blockPlace j n))

theorem Grown.refl (w : fs.Working i) : Grown fs fs i := ⟨.refl w, fun _ _ _ => rfl⟩

theorem Grown.trans (h : Grown fs fs' i) (h' : Grown fs' fs'' i) : Grown fs fs'' i where
  toExtends := h.toExtends.trans h'.toExtends
  data := fun j n hp => by
    have hk := h.kept _ hp
    have := h'.data j n (by rw [hk]; exact hp)
    rw [hk] at this
    exact this.trans (h.data j n hp)

theorem Working.meta_used (w : fs.Working i) : ∀ c < fs.sb.nmeta, fs.img.used c = true := fun c hc =>
  (w.owned.used_iff c (lt_of_lt_of_le hc w.super.ok.fits)).mpr (Or.inl hc)

theorem Working.bread (w : fs.Working i) {p : Place} (hp : (fs.imgAt i).ptr p ≠ 0) :
    fs.bread (fs.inode i).dev ((fs.imgAt i).ptr p) = .ok ((fs.imgAt i).data ((fs.imgAt i).ptr p)) := by
  obtain ⟨hlo, hlt⟩ := w.owned.range p hp
  rw [w.dev, w.super.bread hlt]
  exact congrArg Outcome.ok (if_pos hlo).symm

/-- `balloc` in the middle of an operation: the block is in flight, no pointer has changed. -/
structure InFlight (fs : Fs) (b : Nat) (fs' : Fs) (i : InodeIdx) : Prop where
  super : fs'.Super
  inode : fs'.inode = fs.inode
  sb : fs'.sb = fs.sb
  disksize : fs'.disksize = fs.disksize
  ino : fs'.img.ino = fs.img.ino
  img : fs'.imgAt i = ((fs.imgAt i).setUsed b true).write b .zero
  owned : (fs'.imgAt i).Owned fs.sb (insert b ∅)
  ptr : ∀ p, (fs'.imgAt i).ptr p = (fs.imgAt i).ptr p
  fresh : ∀ p, (fs.imgAt i).ptr p ≠ 0 → (fs.imgAt i).ptr p ≠ b
  pos : b ≠ 0
  free : fs'.free + 1 = fs.free

theorem Working.inFlight (w : fs.Working i) (t : fs.Taken (b, fs')) : InFlight fs b fs' i := by
  have hinode : fs'.inode = fs.inode := t.mem.inode
  have hsb : fs'.sb = fs.sb := t.mem.sb
  have himg : fs'.imgAt i = ((fs.imgAt i).setUsed b true).write b .zero := by
    rw [imgAt, t.img, hinode]
    rfl
  obtain ⟨howned, hptr, -⟩ := w.owned.alloc t.lt t.free
  obtain ⟨hlo, hfresh, -⟩ := w.owned.not_used t.lt t.free
  have hpos := w.super.nmeta_gt
  refine ⟨t.super, hinode, hsb, t.mem.disksize, by rw [t.img]; rfl, himg, himg ▸ howned, fun p => himg ▸ hptr p, hfresh,
    by omega, ?_⟩
  rw [free, free, hsb, t.img]
  exact freeCount_alloc t.lt t.free

theorem InFlight.data_eq (f : InFlight fs b fs' i) {c : Nat} (hc : c ≠ b) : (fs'.imgAt i).data c = (fs.imgAt i).data c := by
  rw [f.img, Img.data_write_of_ne hc]
  rfl

theorem InFlight.data (f : InFlight fs b fs' i) {p : Place} (hp : (fs.imgAt i).ptr p ≠ 0) :
    (fs'.imgAt i).data ((fs.imgAt i).ptr p) = (fs.imgAt i).data ((fs.imgAt i).ptr p) := f.data_eq (f.fresh p hp)

/-! ### The inode's own list -/

theorem inode_setAddr (fs : Fs) (i : InodeIdx) (k : Fin (NDIRECT + 1)) (b : Nat) :
    (fs.setAddr i k b).inode i = { fs.inode i with addrs := update (fs.inode i).addrs k (.ofNat b) } := by
  simp [setAddr, setInode]

theorem imgAt_setAddr (fs : Fs) (i : InodeIdx) (k : Fin (NDIRECT + 1)) (b : Nat) :
    (fs.setAddr i k b).imgAt i = (fs.imgAt i).setIno (fs.inode i).inum
      { (fs.inode i).toDinode with addrs := update (fs.inode i).addrs k (.ofNat b) } := by
  rw [imgAt, inode_setAddr, imgAt, Img.setIno_setIno]
  rfl

/-- What `addrAlloc` and `bmap` have found or made when they return. -/
structure Mapped (fs : Fs) (i : InodeIdx) (p : Place) (r : Nat × Fs) : Prop where
  grown : Grown fs r.2 i
  ptr : (r.2.imgAt i).ptr p = r.1
  pos : r.1 ≠ 0
  old : (fs.imgAt i).ptr p ≠ 0 → r.2 = fs

theorem addrAlloc_spec (w : fs.Working i) (k : Fin (NDIRECT + 1)) :
    (fs.addrAlloc i k).Spec
      (fun r => Mapped fs i (.addr (fs.inode i).inum k) r ∧
        (∀ p, p ≠ .addr (fs.inode i).inum k → (r.2.imgAt i).ptr p = (fs.imgAt i).ptr p) ∧
        r.2.free + (fs.imgAt i).missing (.addr (fs.inode i).inum k) = fs.free)
      fun o => o = some "balloc: out of blocks" ∧ fs.free < (fs.imgAt i).missing (.addr (fs.inode i).inum k) := by
  have hptr : (fs.imgAt i).ptr (.addr (fs.inode i).inum k) = ((fs.inode i).addrs k).toNat := by
    rw [Img.ptr, imgAt, Img.addr_setIno, if_neg w.type]
  unfold addrAlloc
  by_cases hk : (fs.inode i).addrs k = 0
  · have hmiss : (fs.imgAt i).missing (.addr (fs.inode i).inum k) = 1 := Img.missing_of_eq (by rw [hptr, hk]; rfl)
    simp only [if_pos hk, hmiss, w.dev]
    refine Outcome.Spec.bind ((balloc_spec w.super w.meta_used).mono (fun _ h => h) fun o h => ?_) ?_
    · exact ⟨h.1, by rw [free, h.2]; exact Nat.one_pos⟩
    · rintro ⟨b, fs₁⟩ t
      have f := w.inFlight t
      have hino : (fs₁.imgAt i).ino (fs.inode i).inum = (fs.inode i).toDinode := by
        rw [imgAt, f.inode, Img.ino_setIno_self]
      obtain ⟨howned, hself, hother⟩ := f.owned.setAddr (i := (fs.inode i).inum) (k := k)
        (d := { (fs.inode i).toDinode with addrs := update (fs.inode i).addrs k (.ofNat b) })
        w.super.ok.small (Set.notMem_empty b) (by rw [hino]; exact w.type) (by rw [hino]; exact hk)
        (fun _ => by rw [f.img, Img.data_write_self]) (by rw [hino])
      have himg := imgAt_setAddr fs₁ i k b
      rw [f.inode] at himg
      have hslot := inode_setAddr fs₁ i k b
      rw [f.inode] at hslot
      rw [← himg] at howned hself hother
      have hold : ∀ p, p ≠ .addr (fs.inode i).inum k → ((fs₁.setAddr i k b).imgAt i).ptr p = (fs.imgAt i).ptr p :=
        fun p hp => (hother p hp).trans (f.ptr p)
      have hne : ∀ p, (fs.imgAt i).ptr p ≠ 0 → p ≠ .addr (fs.inode i).inum k := by
        rintro p hp rfl
        exact hp (by rw [hptr, hk]; rfl)
      refine ⟨⟨⟨⟨⟨⟨f.super.ok, f.super.block, f.super.disk⟩, ?_, ?_, ?_, ?_⟩, f.sb, f.disksize, fun j hj => ?_, ?_, f.ino,
        fun p hp => hold p (hne p hp), fun p hp => hold p ?_⟩, fun j n hp => ?_⟩, hself, f.pos, fun h => ?_⟩, hold, f.free⟩
      · rw [hslot]
        exact w.dev
      · rw [hslot]
        show (fs.inode i).inum < fs₁.sb.ninodes
        rw [f.sb]
        exact w.inum
      · rw [hslot]
        exact w.type
      · show ((fs₁.setAddr i k b).imgAt i).Owned fs₁.sb ∅
        rw [f.sb]
        exact howned
      · simp only [setAddr, setInode, Function.update_of_ne hj, f.inode]
      · simp only [hslot]
      · rintro rfl
        exact hp rfl
      · rw [himg]
        exact f.data hp
      · exact absurd (by rw [hptr, hk]; rfl) h
  · have hne : (fs.imgAt i).ptr (.addr (fs.inode i).inum k) ≠ 0 := by
      rw [hptr]
      exact fun h => hk (UInt32.toNat_inj.mp h)
    rw [if_neg hk, Outcome.spec_ok]
    exact ⟨⟨.refl w, hptr, hptr ▸ hne, fun _ => rfl⟩, fun _ _ => rfl, by rw [Img.missing_of_ne hne, Nat.add_zero]⟩

/-! ### `bmap` -/

theorem img_logWrite (hs : fs.Super) (hb : fs.sb.nmeta ≤ b) (x : Block) : (fs.logWrite b x).img = fs.img.write b x :=
  imgOf_write hs.ok hb x

theorem imgAt_logWrite (hs : fs.Super) (hb : fs.sb.nmeta ≤ b) (x : Block) :
    (fs.logWrite b x).imgAt i = (fs.imgAt i).write b x := by
  rw [imgAt, img_logWrite hs hb]
  rfl

theorem Working.logWrite (w : fs.Working i) {p : Place} (hp : (fs.imgAt i).ptr p ≠ 0) {x : Block}
    (howned : ((fs.imgAt i).write ((fs.imgAt i).ptr p) x).Owned fs.sb ∅) :
    (fs.logWrite ((fs.imgAt i).ptr p) x).Working i where
  super := w.super.logWrite (by have := w.owned.range p hp; have := w.super.nmeta_gt; omega) x
  dev := w.dev
  inum := w.inum
  type := w.type
  owned := by
    rw [imgAt_logWrite w.super (w.owned.range p hp).1]
    exact howned

theorem Working.setEntry {j : Fin NINDIRECT} {fs₁ : Fs} (w : fs.Working i)
    (ha : (fs.imgAt i).addr (fs.inode i).inum INDIRECT ≠ 0)
    (hj : (fs.imgAt i).ptr (.entry (fs.inode i).inum j) = 0) (f : InFlight fs b fs₁ i)
    (hx : x = ((fs.imgAt i).data ((fs.imgAt i).addr (fs.inode i).inum INDIRECT)).setWord 4 (4 * j) b)
    (hfs' : fs' = fs₁.logWrite ((fs.imgAt i).addr (fs.inode i).inum INDIRECT) x) :
    Mapped fs i (.entry (fs.inode i).inum j) (b, fs') ∧
      (∀ p, p ≠ .entry (fs.inode i).inum j → (fs'.imgAt i).ptr p = (fs.imgAt i).ptr p) ∧ fs'.free + 1 = fs.free := by
  have haddr : (fs₁.imgAt i).addr (fs.inode i).inum INDIRECT =
      (fs.imgAt i).addr (fs.inode i).inum INDIRECT := f.ptr (.addr _ INDIRECT)
  have hrange : fs.sb.nmeta ≤ (fs.imgAt i).addr (fs.inode i).inum INDIRECT :=
    (w.owned.range (.addr (fs.inode i).inum INDIRECT) ha).1
  have hrange₁ : fs₁.sb.nmeta ≤ (fs.imgAt i).addr (fs.inode i).inum INDIRECT := by
    rw [f.sb]
    exact hrange
  have himg : fs'.imgAt i = (fs₁.imgAt i).write ((fs₁.imgAt i).addr (fs.inode i).inum INDIRECT) x := by
    rw [hfs', haddr, imgAt_logWrite f.super hrange₁]
  have hdata := f.data (p := .addr (fs.inode i).inum INDIRECT) ha
  obtain ⟨howned, hself, hother⟩ := f.owned.setEntry (i := (fs.inode i).inum) (j := j) (x := x) w.super.ok.small
    (Set.notMem_empty b) (by rw [haddr]; exact ha) (by rw [f.ptr]; exact hj)
    (by rw [hx, haddr]; exact congrArg (fun y => Buffer.setWord 4 y (4 * j.val) b) hdata.symm)
  rw [← himg] at howned hself hother
  have hold : ∀ p, p ≠ .entry (fs.inode i).inum j → (fs'.imgAt i).ptr p = (fs.imgAt i).ptr p := fun p hp =>
    (hother p hp).trans (f.ptr p)
  have hne : ∀ p, (fs.imgAt i).ptr p ≠ 0 → p ≠ .entry (fs.inode i).inum j := by
    rintro p hp rfl
    exact hp hj
  have hsuper : fs'.Super := by
    rw [hfs']
    exact f.super.logWrite (by have := w.super.nmeta_gt; omega) x
  have hinode : fs'.inode = fs.inode := by rw [hfs']; exact f.inode
  have hsb : fs'.sb = fs.sb := by rw [hfs']; exact f.sb
  refine ⟨⟨⟨⟨⟨hsuper, ?_, ?_, ?_, hsb ▸ howned⟩, hsb, ?_, fun k _ => by rw [hinode], by rw [hinode], ?_,
    fun p hp => hold p (hne p hp), fun p hp => hold p ?_⟩, fun k n hp => ?_⟩, hself, f.pos, fun h => absurd hj h⟩, hold, ?_⟩
  · rw [hinode]
    exact w.dev
  · rw [hinode, hsb]
    exact w.inum
  · rw [hinode]
    exact w.type
  · rw [hfs']
    exact f.disksize
  · rw [hfs', img_logWrite f.super hrange₁]
    exact f.ino
  · rintro rfl
    exact hp rfl
  · rw [himg, haddr, Img.data_write_of_ne (w.owned.not_indirect hp _).symm]
    exact f.data hp
  · rw [← f.free, hfs', free, img_logWrite f.super hrange₁]
    rfl

theorem blockPlace_direct {j : Nat} (h : bn < NDIRECT) : blockPlace j bn = .addr j (Fin.ofNat (NDIRECT + 1) bn) := if_pos h

theorem blockPlace_indirect {j : Nat} (h : ¬bn < NDIRECT) : blockPlace j bn = .entry j (Fin.ofNat NINDIRECT (bn - NDIRECT)) :=
  if_neg h

theorem bmap_direct_spec (w : fs.Working i) (hbn : bn < NDIRECT) :
    (fs.bmap i bn).Spec
      (fun r => Mapped fs i (blockPlace (fs.inode i).inum bn) r ∧
        (∀ p, p ≠ blockPlace (fs.inode i).inum bn → (r.2.imgAt i).ptr p = (fs.imgAt i).ptr p) ∧
        r.2.free + (fs.imgAt i).need (fs.inode i).inum bn = fs.free)
      fun o => o = some "balloc: out of blocks" ∧ fs.free < (fs.imgAt i).need (fs.inode i).inum bn := by
  have hneed : (fs.imgAt i).need (fs.inode i).inum bn =
      (fs.imgAt i).missing (.addr (fs.inode i).inum (Fin.ofNat (NDIRECT + 1) bn)) := by
    rw [Img.need, if_pos hbn, blockPlace_direct hbn, Nat.add_zero]
  rw [bmap, if_pos hbn, hneed, blockPlace_direct hbn]
  exact addrAlloc_spec w _

theorem bmap_indirect_spec (w : fs.Working i) (hbn : ¬bn < NDIRECT) (hmax : bn < MAXFILE) :
    (fs.bmap i bn).Spec
      (fun r => Mapped fs i (blockPlace (fs.inode i).inum bn) r ∧
        (∀ p, p ≠ blockPlace (fs.inode i).inum bn → p ≠ .addr (fs.inode i).inum INDIRECT →
          (r.2.imgAt i).ptr p = (fs.imgAt i).ptr p) ∧
        (r.2.imgAt i).ptr (.addr (fs.inode i).inum INDIRECT) ≠ 0 ∧
        r.2.free + (fs.imgAt i).need (fs.inode i).inum bn = fs.free)
      fun o => o = some "balloc: out of blocks" ∧ fs.free < (fs.imgAt i).need (fs.inode i).inum bn := by
  have hind : bn - NDIRECT < NINDIRECT := by
    simp only [MAXFILE] at hmax
    omega
  obtain ⟨j, hplace, hj⟩ : ∃ j : Fin NINDIRECT, blockPlace (fs.inode i).inum bn = .entry (fs.inode i).inum j ∧
      bn - NDIRECT = j.val := ⟨_, blockPlace_indirect hbn, (Nat.mod_eq_of_lt hind).symm⟩
  have hneed : (fs.imgAt i).need (fs.inode i).inum bn = (fs.imgAt i).missing (.entry (fs.inode i).inum j) +
      (fs.imgAt i).missing (.addr (fs.inode i).inum INDIRECT) := by
    rw [Img.need, if_neg hbn, hplace]
  rw [hneed, hplace, bmap, if_neg hbn, hj]
  simp only [j.isLt, if_true]
  refine Outcome.Spec.bind ((addrAlloc_spec w INDIRECT).mono (fun _ h => h) fun o h => ⟨h.1, by omega⟩) ?_
  rintro ⟨a, fs₁⟩ ⟨m, hother, hcount⟩
  dsimp only at hother hcount
  have w₁ := m.grown.work
  have hinum := m.grown.inum
  have hptr : (fs₁.imgAt i).ptr (.addr (fs.inode i).inum INDIRECT) = a := m.ptr
  have ha : (fs₁.imgAt i).addr (fs.inode i).inum INDIRECT = a := m.ptr
  have hane : (fs₁.imgAt i).addr (fs.inode i).inum INDIRECT ≠ 0 := ha ▸ m.pos
  have hread := w₁.bread (p := .addr (fs.inode i).inum INDIRECT) hane
  rw [hptr] at hread
  have hentry : (fs.imgAt i).ptr (.entry (fs.inode i).inum j) = ((fs₁.imgAt i).data a).word 4 (4 * j) := by
    rw [← hother _ (by simp), Img.ptr_entry hane, ha]
  simp only [hread, Outcome.ok_bind]
  split
  · rename_i hword
    -- The entry is empty: a second block is allocated.
    have hmiss : (fs.imgAt i).missing (.entry (fs.inode i).inum j) = 1 := Img.missing_of_eq (hentry.trans hword)
    rw [hmiss, w₁.dev]
    refine Outcome.Spec.bind ((balloc_spec w₁.super w₁.meta_used).mono (fun _ h => h) fun o h => ⟨h.1, ?_⟩) ?_
    · have hzero : fs₁.free = 0 := h.2
      omega
    · rintro ⟨b, fs₂⟩ t
      have f := w₁.inFlight t
      obtain ⟨m', hother', hcount'⟩ := w₁.setEntry (j := j) (b := b) (by rw [hinum]; exact hane)
        (by rw [hinum, hother _ (by simp)]; exact hentry.trans hword) f rfl rfl
      dsimp only at m' hother' hcount'
      rw [hinum, ha] at m' hother' hcount'
      refine ⟨⟨m.grown.trans m'.grown, m'.ptr, m'.pos, fun h => absurd (hentry.trans hword) h⟩, fun p hp hp' => ?_, ?_, ?_⟩
      · exact (hother' p hp).trans (hother p hp')
      · rw [hother' _ (by simp), hptr]
        exact m.pos
      · dsimp only at hcount' ⊢
        omega
  · rename_i hword
    have hne : (fs.imgAt i).ptr (.entry (fs.inode i).inum j) ≠ 0 := fun h => hword (hentry.symm.trans h)
    have hlast : (fs.imgAt i).addr (fs.inode i).inum INDIRECT ≠ 0 := fun h => hne (Img.ptr_entry_zero h)
    refine ⟨⟨m.grown, ?_, hword, fun _ => m.old hlast⟩, fun p _ hp' => hother p hp', hptr ▸ m.pos, ?_⟩
    · rw [hother _ (by simp), hentry]
    · rw [Img.missing_of_ne hne, Nat.zero_add]
      exact hcount

/-- `bmap` finds or makes the `bn`th block, at the cost of the blocks that were lacking. -/
theorem bmap_spec (w : fs.Working i) {nb : Nat} (hbn : bn < nb) (hnb : nb ≤ MAXFILE) :
    (fs.bmap i bn).Spec
      (fun r => Mapped fs i (blockPlace (fs.inode i).inum bn) r ∧
        r.2.free + (fs.imgAt i).lacking (fs.inode i).inum nb = fs.free + (r.2.imgAt i).lacking (fs.inode i).inum nb)
      fun o => o = some "balloc: out of blocks" ∧ fs.free < (fs.imgAt i).lacking (fs.inode i).inum nb := by
  have hbad : ∀ o, o = some "balloc: out of blocks" ∧ fs.free < (fs.imgAt i).need (fs.inode i).inum bn →
      o = some "balloc: out of blocks" ∧ fs.free < (fs.imgAt i).lacking (fs.inode i).inum nb := fun o ho =>
    ⟨ho.1, lt_of_lt_of_le ho.2 (Img.need_le_lacking hbn)⟩
  have hne : ∀ n, n ≠ bn → n < MAXFILE → blockPlace (fs.inode i).inum n ≠ blockPlace (fs.inode i).inum bn :=
    fun n hn hlt heq => hn (blockPlace_inj hlt (by omega) heq).2
  by_cases hd : bn < NDIRECT
  · refine (bmap_direct_spec w hd).mono ?_ hbad
    rintro ⟨b, fs'⟩ ⟨m, hother, hcount⟩
    dsimp only at hother hcount ⊢
    have := Img.lacking_add_need (fs.imgAt i) (fs'.imgAt i) hbn hnb (by rw [m.ptr]; exact m.pos)
      (by rw [if_pos hd]; exact hother _ (blockPlace_ne_last _ _ _).symm) fun n hn hlt => hother _ (hne n hn hlt)
    exact ⟨m, by omega⟩
  · refine (bmap_indirect_spec w hd (by omega)).mono ?_ hbad
    rintro ⟨b, fs'⟩ ⟨m, hother, hlast, hcount⟩
    dsimp only at hother hcount ⊢
    have := Img.lacking_add_need (fs.imgAt i) (fs'.imgAt i) hbn hnb (by rw [m.ptr]; exact m.pos)
      (by rw [if_neg hd]; exact hlast) fun n hn hlt => hother _ (hne n hn hlt) (blockPlace_ne_last _ _ _)
    exact ⟨m, by omega⟩

end Fs
end Xv6
