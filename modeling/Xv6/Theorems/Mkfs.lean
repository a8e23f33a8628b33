import Xv6.Mkfs
import Xv6.Theorems.FsRuns

/-! `iappend` of `mkfs` does to the image what `writei` of the kernel does to a disk whose bitmap has the blocks set that
    `mkfs` has taken so far. -/

namespace Xv6
open Function (update update_comm update_idem update_of_ne update_self)
open Outcome (ensures_true ok_bind pure_eq)
open Bytes

namespace Mkfs

/-! ### The disk -/

/-- The layout with another number of inodes; as long as they need the same blocks, all else is the same. -/
def sbWith (n : Nat) : Superblock := { sb with ninodes := n }

/-- The number of inodes fits the inode blocks, as `NINODES` does. -/
abbrev Fits (n : Nat) : Prop := n / IPB = 25

def noInode : Inode := { type := 0, dev := 0, inum := 0, ref := 0, busy := false, valid := false }

/-- A disk with the blocks of the image, and the bits of the blocks that have been taken. -/
def disk (n : Nat) (m : Mkfs) (inode : InodeIdx → Inode) (logged : List Nat) : Fs where
  blk := update (update m.blk 1 (encodeSb (sbWith n))) sb.bmapstart (bitmap m.freeblock)
  disksize := FSSIZE
  sb := sbWith n
  inode := inode
  logged := logged

def slots (inum : Nat) (din : Dinode) : InodeIdx → Inode :=
  update (fun _ => noInode) 0 { toDinode := din, dev := ROOTDEV, inum := inum, ref := 1, busy := true, valid := true }

/-- The disk, with the inode that `iappend` works on in the cache. -/
abbrev held (n : Nat) (m : Mkfs) (inum : Nat) (din : Dinode) (logged : List Nat) : Fs := disk n m (slots inum din) logged

variable {n inum b : Nat} {m : Mkfs} {din : Dinode} {inode : InodeIdx → Inode} {logged : List Nat}

theorem sector_eq (h : b < 2 ^ 23) : sector b = b := by
  unfold sector
  simp only [BSIZE]
  omega

theorem slots_zero : slots inum din 0 =
    { toDinode := din, dev := ROOTDEV, inum := inum, ref := 1, busy := true, valid := true } := update_self ..

theorem blk_disk (h1 : b ≠ 1) (hb : b ≠ sb.bmapstart) : (disk n m inode logged).blk b = m.blk b :=
  (update_of_ne hb _ _).trans (update_of_ne h1 _ _)

theorem blk_disk_bitmap : (disk n m inode logged).blk sb.bmapstart = bitmap m.freeblock := by
  dsimp only [disk]
  rw [update_self]

theorem bread_disk (hb : b < FSSIZE) : (disk n m inode logged).bread ROOTDEV b = .ok ((disk n m inode logged).blk b) := by
  have hdisk : ¬(disk n m inode logged).disksize ≤ b := not_le.mpr hb
  rw [Fs.bread, if_neg (by decide), if_neg hdisk]

theorem nmeta_eq : nmeta = 59 := by decide

theorem bmapstart_eq : sb.bmapstart = 58 := by decide

theorem nmeta_sbWith (n : Nat) : (sbWith n).nmeta = 59 := by
  unfold Superblock.nmeta
  change sb.bmapstart + FSSIZE / BPB + 1 = 59
  decide

theorem bblock_disk (hb : b < FSSIZE) : (disk n m inode logged).sb.bblock b = sb.bmapstart := by
  unfold Superblock.bblock
  change b / BPB + sb.bmapstart = sb.bmapstart
  rw [Nat.div_eq_of_lt (lt_trans hb (by decide)), Nat.zero_add]

theorem logWrite_disk {x : Block} (h1 : b ≠ 1) (hb : b ≠ sb.bmapstart) :
    (disk n m inode logged).logWrite b x = disk n { m with blk := update m.blk b x } inode (b :: logged) := by
  unfold Fs.logWrite disk
  dsimp only
  rw [update_comm (Ne.symm hb), update_comm (Ne.symm h1)]

/-! ### `balloc` -/

theorem bitmap_succ (f : Nat) : bitmap (f + 1) = (bitmap f).setBit f := by
  unfold bitmap
  rw [List.range_succ, List.foldl_append]
  rfl

theorem bit_bitmap {f : Nat} (hf : f ≤ BPB) (k : Nat) : (bitmap f).bit k = decide (k < f) := by
  induction f with
  | zero =>
    rw [Buffer.bit_eq_getLsbD]
    simp [bitmap]
  | succ f ih =>
    have hlt : f / 8 < BSIZE := by
      simp only [BPB, BSIZE] at *
      omega
    rw [bitmap_succ, Buffer.bit_setBit _ _ hlt, ih (by omega), ← Bool.decide_or, decide_eq_decide]
    omega

theorem ballocBit_bitmap {f : Nat} (size : Nat) (hf : f ≤ BPB) (hsize : size ≤ BPB) : ∀ left : Nat, left ≤ BPB → BPB - left ≤ f →
    Fs.ballocBit (bitmap f) size 0 left = if f < size then some f else none
  | 0, _, h => by
    rw [Fs.ballocBit, if_neg (by omega)]
  | left + 1, hleft, h => by
    rw [Fs.ballocBit, bit_bitmap hf, Nat.zero_add]
    by_cases hbit : BPB - (left + 1) < f
    · rw [decide_eq_true hbit, if_pos rfl, ballocBit_bitmap size hf hsize left (by omega) (by omega)]
      split
      · rfl
      · rw [if_neg (by omega)]
    · have heq : BPB - (left + 1) = f := by omega
      rw [heq, decide_eq_false (lt_irrefl f)]
      rfl

structure Clean (m : Mkfs) : Prop where
  len : m.len = FSSIZE
  super : m.blk 1 = encodeSb sb
  lo : nmeta ≤ m.freeblock
  hi : m.freeblock ≤ FSSIZE
  zero : ∀ b, m.freeblock ≤ b → m.blk b = .zero

theorem balloc_disk (c : Clean m) : (disk n m inode logged).balloc ROOTDEV =
    if m.freeblock < FSSIZE then
      .ok (m.freeblock, disk n { m with freeblock := m.freeblock + 1 } inode (m.freeblock :: sb.bmapstart :: logged))
    else .panic "balloc: out of blocks" := by
  have hhi : m.freeblock ≤ 1000 := c.hi
  have hlo := c.lo
  rw [nmeta_eq] at hlo
  have hblock : (disk n m inode logged).sb.bblock 0 = sb.bmapstart := bblock_disk (by decide)
  have hrounds : (disk n m inode logged).sb.size / BPB + 1 = 0 + 1 := by
    change FSSIZE / BPB + 1 = 0 + 1
    decide
  have hbit := ballocBit_bitmap (f := m.freeblock) FSSIZE (by simp only [BPB, BSIZE]; omega)
    (by decide) BPB le_rfl (by omega)
  have hread : (disk n m inode logged).bread ROOTDEV sb.bmapstart = .ok (bitmap m.freeblock) := by
    rw [bread_disk (by decide), blk_disk_bitmap]
  have hsize : (disk n m inode logged).sb.size = FSSIZE := rfl
  unfold Fs.balloc
  rw [hrounds, Fs.ballocFrom, if_pos (by rw [hsize]; decide), hblock, hread, ok_bind, hsize, hbit]
  by_cases hroom : m.freeblock < FSSIZE
  · rw [if_pos hroom, if_pos hroom]
    dsimp only
    have hne : m.freeblock ≠ sb.bmapstart := by
      rw [bmapstart_eq]
      omega
    have hdisk : (disk n m inode logged).logWrite sb.bmapstart ((bitmap m.freeblock).setBit m.freeblock) =
        disk n { m with freeblock := m.freeblock + 1 } inode (sb.bmapstart :: logged) := by
      unfold Fs.logWrite disk
      dsimp only
      rw [update_idem, bitmap_succ]
    have hzero : update m.blk m.freeblock .zero = m.blk :=
      Function.update_eq_self_iff.mpr (c.zero _ le_rfl).symm
    rw [hdisk, Nat.zero_add, Fs.bzero]
    rw [bread_disk hroom, ok_bind, pure_eq, ok_bind, logWrite_disk (by omega) hne]
    dsimp only
    rw [hzero]
    rfl
  · rw [if_neg hroom, if_neg hroom]
    rfl

/-! ### `iappend` and `writei` -/

theorem rsect_eq (c : Clean m) (hb : b < FSSIZE) : m.rsect b = .ok (m.blk b) := by
  have hsec : sector b = b := sector_eq (lt_trans hb (by decide))
  rw [rsect, hsec, if_pos (by rw [c.len]; exact hb)]

theorem wsect_eq (c : Clean m) (hb : b < FSSIZE) (x : Block) : m.wsect b x = { m with blk := update m.blk b x } := by
  have hsec : sector b = b := sector_eq (lt_trans hb (by decide))
  rw [wsect, hsec, max_eq_left (by rw [c.len]; exact hb)]

theorem Clean.write (c : Clean m) (hb : b < m.freeblock) (h1 : b ≠ 1) (x : Block) :
    Clean { m with blk := update m.blk b x } where
  len := c.len
  super := (update_of_ne (Ne.symm h1) _ _).trans c.super
  lo := c.lo
  hi := c.hi
  zero b' hb' := (update_of_ne (ne_of_gt (lt_of_lt_of_le hb hb')) _ _).trans (c.zero b' hb')

theorem Clean.take (c : Clean m) (h : m.freeblock < FSSIZE) : Clean { m with freeblock := m.freeblock + 1 } where
  len := c.len
  super := c.super
  lo := c.lo.trans (Nat.le_succ _)
  hi := h
  zero b' hb' := c.zero b' (Nat.le_of_succ_le hb')

/-- A number of the inode is found or made in the same way; with no block left, the kernel panics and `mkfs` has a number
    behind the end of the image. -/
theorem addrAlloc_held (n inum : Nat) (din : Dinode) (c : Clean m) (k : Fin (NDIRECT + 1)) :
    (m.addrFor din k).1.freeinode = m.freeinode ∧ (m.addrFor din k).1.blk = m.blk ∧
    ((∃ logged', (held n m inum din logged).addrAlloc 0 k = .ok (((m.addrFor din k).2.addrs k).toNat,
        held n (m.addrFor din k).1 inum (m.addrFor din k).2 logged')) ∧ Clean (m.addrFor din k).1 ∨
      (∃ msg, (held n m inum din logged).addrAlloc 0 k = .panic msg) ∧ ((m.addrFor din k).2.addrs k).toNat = FSSIZE ∧
        (m.addrFor din k).1.len = FSSIZE) := by
  have hslot : (held n m inum din logged).inode 0 =
    { toDinode := din, dev := ROOTDEV, inum := inum, ref := 1, busy := true, valid := true } := slots_zero
  unfold addrFor Fs.addrAlloc
  rw [hslot]
  dsimp only
  split
  · refine ⟨rfl, rfl, ?_⟩
    have hhi : m.freeblock ≤ 1000 := c.hi
    have hnat : (UInt32.ofNat m.freeblock).toNat = m.freeblock := UInt32.toNat_ofNat_of_lt' (lt_of_le_of_lt hhi (by decide))
    rw [balloc_disk c]
    dsimp only
    rw [update_self, hnat]
    by_cases hroom : m.freeblock < FSSIZE
    · rw [if_pos hroom]
      refine Or.inl ⟨⟨m.freeblock :: sb.bmapstart :: logged, ?_⟩, c.take hroom⟩
      rw [ok_bind]
      simp only [Fs.setAddr, Fs.setInode, pure_eq]
      have hslots : update (slots inum din) 0 { (slots inum din 0) with
          addrs := update (slots inum din 0).addrs k (.ofNat m.freeblock) } =
          slots inum { din with addrs := update din.addrs k (.ofNat m.freeblock) } := by
        rw [slots_zero, slots, update_idem]
        rfl
      exact congrArg (fun inode => Outcome.ok (m.freeblock, disk n { m with freeblock := m.freeblock + 1 } inode _)) hslots
    · rw [if_neg hroom]
      exact Or.inr ⟨⟨_, rfl⟩, le_antisymm c.hi (not_lt.mp hroom), c.len⟩
  · exact ⟨rfl, rfl, Or.inl ⟨⟨logged, rfl⟩, c⟩⟩

theorem used_disk (c : Clean m) (hb : b < FSSIZE) : (disk n m inode logged).img.used b = decide (b < m.freeblock) := by
  have hf : m.freeblock ≤ BPB := c.hi.trans (by decide)
  have hmod : b % BPB = b := Nat.mod_eq_of_lt (lt_trans hb (by decide))
  have hused : (disk n m inode logged).img.used b = ((disk n m inode logged).blk ((disk n m inode logged).sb.bblock b)).bit (b % BPB) := Fs.used_img hb
  rw [hused, bblock_disk hb, blk_disk_bitmap, hmod, bit_bitmap hf]

theorem ptr_range (c : Clean m) (w : (held n m inum din logged).Working 0) {p : Place} (hp : ((held n m inum din logged).imgAt 0).ptr p ≠ 0) :
    59 ≤ ((held n m inum din logged).imgAt 0).ptr p ∧ ((held n m inum din logged).imgAt 0).ptr p < m.freeblock := by
  obtain ⟨hlo, hhi⟩ := w.owned.range p hp
  have hused := (w.owned.used_iff _ hhi).mpr (Or.inr (Or.inl ⟨p, rfl, hp⟩))
  have hlt : ((held n m inum din logged).imgAt 0).ptr p < FSSIZE := hhi
  change (held n m inum din logged).img.used _ = true at hused
  rw [used_disk c hlt, decide_eq_true_eq] at hused
  rw [show (held n m inum din logged).sb = sbWith n from rfl, nmeta_sbWith] at hlo
  exact ⟨hlo, hused⟩

theorem blk_data (hb : 59 ≤ b) : (disk n m inode logged).blk b = m.blk b := by
  have := bmapstart_eq
  exact blk_disk (by omega) (by omega)

theorem logWrite_data {x : Block} (hb : 59 ≤ b) :
    (disk n m inode logged).logWrite b x = disk n { m with blk := update m.blk b x } inode (b :: logged) := by
  have := bmapstart_eq
  exact logWrite_disk (by omega) (by omega)

theorem Mapped.range {p : Place} {m' : Mkfs} {din' : Dinode} {logged' : List Nat} {x : Nat} (c : Clean m')
    (h : Fs.Mapped (held n m inum din logged) 0 p (x, held n m' inum din' logged')) : 59 ≤ x ∧ x < m'.freeblock := by
  have hptr : ((held n m' inum din' logged').imgAt 0).ptr p = x := h.ptr
  have hr := ptr_range c h.grown.work (p := p) (by rw [hptr]; exact h.pos)
  rw [hptr] at hr
  exact hr

/-- `iappend` and `writei` find the same block, or take the next one for it. Without any left the kernel panics; `mkfs` goes
    on with the number behind the end of the image, if it does not fail at once. -/
theorem blockFor_cases {fbn : Nat} (c : Clean m) (w : (held n m inum din logged).Working 0) (hbn : fbn < MAXFILE) :
    (∃ x m' din' logged', Clean m' ∧ m'.freeinode = m.freeinode ∧ m.blockFor din fbn = .ok (x, m', din') ∧
      (held n m inum din logged).bmap 0 fbn = .ok (x, held n m' inum din' logged')) ∨
    (∃ msg, (held n m inum din logged).bmap 0 fbn = .panic msg) ∧ ((∃ msg, m.blockFor din fbn = .panic msg) ∨
      ∃ m' din', m.blockFor din fbn = .ok (FSSIZE, m', din') ∧ m'.len = FSSIZE) := by
  by_cases hd : fbn < NDIRECT
  · rw [blockFor, if_pos hd, Fs.bmap, if_pos hd]
    dsimp only
    obtain ⟨hi, -, ⟨⟨logged', hal⟩, c'⟩ | ⟨⟨msg, hal⟩, haddr, hlen⟩⟩ :=
      addrAlloc_held n inum din c (Fin.ofNat (NDIRECT + 1) fbn)
    · exact Or.inl ⟨_, _, _, logged', c', hi, rfl, hal⟩
    · rw [haddr]
      exact Or.inr ⟨⟨msg, hal⟩, Or.inr ⟨_, _, rfl, hlen⟩⟩
  · have hind : fbn - NDIRECT < NINDIRECT := by
      simp only [MAXFILE] at hbn
      omega
    rw [blockFor, if_neg hd, Fs.bmap, if_neg hd]
    dsimp only
    rw [if_pos hind]
    obtain ⟨hi, -, ⟨⟨logged₁, hal⟩, c₁⟩ | ⟨⟨msg, hal⟩, haddr, hlen⟩⟩ :=
      addrAlloc_held n inum din c INDIRECT
    · obtain ⟨hmap, -⟩ := (Fs.addrAlloc_spec w INDIRECT).of_eq_ok hal
      obtain ⟨hlo, hlt⟩ := Mapped.range c₁ hmap
      generalize hm₁ : (m.addrFor din INDIRECT).1 = m₁ at *
      generalize hd₁ : (m.addrFor din INDIRECT).2 = din₁ at *
      generalize ha : (din₁.addrs INDIRECT).toNat = a at *
      have hlt' : a < FSSIZE := lt_of_lt_of_le hlt c₁.hi
      have hdev : ((held n m₁ inum din₁ logged₁).inode 0).dev = ROOTDEV := by
        rw [show (held n m₁ inum din₁ logged₁).inode 0 = _ from slots_zero]
      rw [hal, ok_bind]
      dsimp only
      rw [rsect_eq c₁ hlt', hdev, bread_disk hlt', blk_data hlo, ok_bind, ok_bind]
      split
      · by_cases hroom : m₁.freeblock < FSSIZE
        · rw [balloc_disk c₁, if_pos hroom, ok_bind]
          dsimp only
          have hword : ((m₁.blk a).setWord 4 (4 * (fbn - NDIRECT)) m₁.freeblock).word 4 (4 * (fbn - NDIRECT)) = m₁.freeblock := by
            rw [Buffer.word_setWord_same _ _ (by simp only [NINDIRECT, BSIZE] at *; omega)]
            exact Nat.mod_eq_of_lt (lt_trans hroom (by decide))
          have c₂ := c₁.take hroom
          rw [hword, logWrite_data hlo, wsect_eq c₂ hlt']
          exact Or.inl ⟨_, _, _, _, c₂.write (Nat.lt_succ_of_lt hlt) (by omega) _, hi, rfl, rfl⟩
        · rw [balloc_disk c₁, if_neg hroom]
          have hfull : m₁.freeblock = FSSIZE := le_antisymm c₁.hi (not_lt.mp hroom)
          have hword : ((m₁.blk a).setWord 4 (4 * (fbn - NDIRECT)) m₁.freeblock).word 4 (4 * (fbn - NDIRECT)) = FSSIZE := by
            rw [Buffer.word_setWord_same _ _ (by simp only [NINDIRECT, BSIZE] at *; omega), hfull]
            decide
          refine Or.inr ⟨⟨_, rfl⟩, Or.inr ⟨_, _, by rw [hword]; rfl, ?_⟩⟩
          have hsec : sector a = a := sector_eq (lt_trans hlt' (by decide))
          change max m₁.len (sector a + 1) = FSSIZE
          rw [hsec, c₁.len]
          exact max_eq_left hlt'
      · exact Or.inl ⟨_, _, _, logged₁, c₁, hi, rfl, rfl⟩
    · generalize (m.addrFor din INDIRECT).1 = m₁ at *
      generalize (m.addrFor din INDIRECT).2 = din₁ at *
      have hsec : sector FSSIZE = FSSIZE := sector_eq (by decide)
      rw [hal, haddr, rsect, hsec, if_neg (by rw [hlen]; exact lt_irrefl _)]
      exact Or.inr ⟨⟨_, rfl⟩, Or.inl ⟨_, rfl⟩⟩

theorem blockFor_matches {γ δ : Type} {S : γ → δ → Prop} {fbn : Nat} {k : Nat → Mkfs → Dinode → Block → Outcome γ}
    {l : Nat → Fs → Block → Outcome δ} (c : Clean m) (w : (held n m inum din logged).Working 0) (hbn : fbn < MAXFILE)
    (hk : ∀ x m' din' logged', Clean m' → m'.freeinode = m.freeinode →
      (held n m inum din logged).bmap 0 fbn = .ok (x, held n m' inum din' logged') → 59 ≤ x → x < m'.freeblock →
        Outcome.Matches S (k x m' din' (m'.blk x)) (l x (held n m' inum din' logged') (m'.blk x))) :
    Outcome.Matches S (m.blockFor din fbn >>= fun r => r.2.1.rsect r.1 >>= fun buf => k r.1 r.2.1 r.2.2 buf)
      ((held n m inum din logged).bmap 0 fbn >>= fun r => r.2.bread (r.2.inode 0).dev r.1 >>= fun x => l r.1 r.2 x) := by
  rcases blockFor_cases c w hbn with ⟨x, m', din', logged', c', hi, hmk, hbm⟩ | ⟨⟨msg, hbm⟩, ⟨msg', hmk⟩ | ⟨m', din', hmk, hlen⟩⟩
  · obtain ⟨hmap, -⟩ := (Fs.bmap_spec w hbn (le_refl MAXFILE)).of_eq_ok hbm
    obtain ⟨hlo, hlt⟩ := Mapped.range c' hmap
    have hlt' : x < FSSIZE := lt_of_lt_of_le hlt c'.hi
    have hdev : ((held n m' inum din' logged').inode 0).dev = ROOTDEV := by
      rw [show (held n m' inum din' logged').inode 0 = _ from slots_zero]
    rw [hmk, hbm, ok_bind, ok_bind]
    dsimp only
    rw [rsect_eq c' hlt', hdev, bread_disk hlt', blk_data hlo, ok_bind, ok_bind]
    exact hk x m' din' logged' c' hi hbm hlo hlt
  · rw [hmk, hbm]
    trivial
  · have hsec : sector FSSIZE = FSSIZE := sector_eq (by decide)
    rw [hmk, hbm, ok_bind]
    dsimp only
    rw [rsect, hsec, if_neg (by rw [hlen]; exact lt_irrefl _)]
    trivial

/-- The image and the inode of `mkfs`, and the disk of the kernel, after the same bytes. -/
structure Same (n inum freeinode : Nat) (a : Nat × Mkfs × Dinode) (b : Nat × Fs) : Prop where
  eq : ∃ logged, b = (a.1, held n a.2.1 inum a.2.2 logged)
  clean : Clean a.2.1
  freeinode : a.2.1.freeinode = freeinode

theorem iappendLoop_matches {src : Nat → UInt8} {len : Nat} : ∀ (left : Nat) (m : Mkfs) (din : Dinode) (logged : List Nat) (off tot : Nat)
    (p : List UInt8), p = (List.range (len - tot)).map (fun j => src (tot + j)) → tot ≤ len →
    off + (len - tot) ≤ MAXFILE * BSIZE → Clean m → (held n m inum din logged).Working 0 →
    Outcome.Matches (Same n inum m.freeinode) (iappendLoop left m din off p) ((held n m inum din logged).writeiLoop 0 src len left off tot)
  | 0, m, din, logged, off, tot, p, _, _, _, c, _ => ⟨⟨logged, rfl⟩, c, rfl⟩
  | left + 1, m, din, logged, off, tot, p, hp, htot, hoff, c, w => by
    have hlen : p.length = len - tot := by simp [hp]
    rw [iappendLoop, Fs.writeiLoop]
    by_cases hlt : tot < len
    · have hne : p ≠ [] := fun h => by
        rw [h, List.length_nil] at hlen
        omega
      have hbn : off / BSIZE < MAXFILE := Nat.div_lt_of_lt_mul (by rw [Nat.mul_comm]; omega)
      rw [if_neg hne, if_neg (not_le.mpr hbn), if_pos hlt]
      refine blockFor_matches
        (k := fun x m din buf => iappendLoop left
          (m.wsect x (buf.setBytes (off - off / BSIZE * BSIZE) (p.take (min p.length ((off / BSIZE + 1) * BSIZE - off))))) din
          (off + min p.length ((off / BSIZE + 1) * BSIZE - off)) (p.drop (min p.length ((off / BSIZE + 1) * BSIZE - off))))
        (l := fun x fs buf => (fs.logWrite x (buf.setBytes (off % BSIZE)
          ((List.range (min (len - tot) (BSIZE - off % BSIZE))).map fun j => src (tot + j)))).writeiLoop 0 src len left
          (off + min (len - tot) (BSIZE - off % BSIZE)) (tot + min (len - tot) (BSIZE - off % BSIZE)))
        c w hbn fun x m' din' logged' c' hi hbm hlo hx => ?_
      -- Both compute the same part of the block.
      have hsub : off - off / BSIZE * BSIZE = off % BSIZE := by
        simp only [BSIZE]
        omega
      have hmin : min p.length ((off / BSIZE + 1) * BSIZE - off) = min (len - tot) (BSIZE - off % BSIZE) := by
        rw [hlen]
        simp only [BSIZE]
        omega
      have hmod : off % BSIZE < BSIZE := Nat.mod_lt off (by decide)
      rw [hmin, hsub]
      generalize hk : min (len - tot) (BSIZE - off % BSIZE) = k
      have htake : p.take k = (List.range k).map fun j => src (tot + j) := by
        rw [hp, ← List.map_take, List.take_range, Nat.min_eq_left (by omega)]
      have hdrop : p.drop k = (List.range (len - (tot + k))).map fun j => src (tot + k + j) := by
        have hsplit : len - tot = k + (len - (tot + k)) := by omega
        rw [hp, hsplit, List.range_add, List.map_append, List.drop_append_of_le_length (by simp), List.map_map]
        simp [Function.comp_def, Nat.add_assoc]
      have hx' : x < FSSIZE := lt_of_lt_of_le hx c'.hi
      have hdata : ((held n m' inum din' logged').imgAt 0).data x = m'.blk x := by
        have hdata : (held n m' inum din' logged').img.data x = (held n m' inum din' logged').blk x :=
          if_pos (by rw [show (held n m' inum din' logged').sb = sbWith n from rfl, nmeta_sbWith]; exact hlo)
        exact hdata.trans (blk_data hlo)
      obtain ⟨hmap, -⟩ := (Fs.bmap_spec w hbn (le_refl MAXFILE)).of_eq_ok hbm
      have hwrote := (hmap.wrote (m := k) (fun j => src (tot + j)) (by omega) (by omega) hbn).1
      rw [hdata, logWrite_data hlo] at hwrote
      rw [htake, hdrop, wsect_eq c' hx', logWrite_data hlo, ← hi]
      exact iappendLoop_matches left _ din' _ (off + k) (tot + k) _ rfl (by omega) (by omega) (c'.write hx (by omega) _) hwrote.work
    · have hnil : p = [] := List.length_eq_zero_iff.mp (by omega)
      rw [if_pos hnil, if_neg hlt]
      exact ⟨⟨logged, rfl⟩, c, rfl⟩

theorem iappendLoop_le : ∀ (left : Nat) (m : Mkfs) (din : Dinode) (off : Nat) (p : List UInt8), p ≠ [] → p.length ≤ left →
    (iappendLoop left m din off p).Ensures fun _ => off + p.length ≤ MAXFILE * BSIZE
  | 0, m, din, off, p, hne, hleft => absurd (List.length_eq_zero_iff.mp (Nat.le_zero.mp hleft)) hne
  | left + 1, m, din, off, p, hne, hleft => by
    rw [iappendLoop, if_neg hne]
    split
    · trivial
    · rename_i hmax
      refine (ensures_true _).bind fun r _ => (ensures_true _).bind fun buf _ => ?_
      have hpos : 0 < p.length := List.length_pos_iff.mpr hne
      have hk : 0 < min p.length ((off / BSIZE + 1) * BSIZE - off) := by
        simp only [BSIZE]
        omega
      generalize hk' : min p.length ((off / BSIZE + 1) * BSIZE - off) = k at hk
      by_cases hdrop : p.drop k = []
      · -- The last block.
        have hle : p.length ≤ (off / BSIZE + 1) * BSIZE - off := by
          rw [List.drop_eq_nil_iff] at hdrop
          omega
        have hbn : (off / BSIZE + 1) * BSIZE ≤ MAXFILE * BSIZE := Nat.mul_le_mul_right _ (not_le.mp hmax)
        refine (ensures_true _).mono fun _ _ => ?_
        simp only [BSIZE] at *
        omega
      · refine (iappendLoop_le left _ _ _ _ hdrop ?_).mono fun _ h => ?_
        · rw [List.length_drop]
          omega
        · rw [List.length_drop] at h
          omega

end Mkfs
end Xv6
