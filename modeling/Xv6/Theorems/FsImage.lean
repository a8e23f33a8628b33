import Xv6.Dir
import Xv6.Lib.Ownership

/-! The image of a file system: its inodes, the map of used blocks and the data blocks, taken apart from the
    bytes that hold them. Each primitive of `fs.c` changes one of the three. Over an image it is stated who
    owns a block and what a file contains. -/

namespace Xv6
open Function (update update_of_ne update_self)
open Bytes Ownership

/-! ### Inodes in their blocks -/

theorem ofNat_toNat_mod16 (v : UInt16) : UInt16.ofNat (v.toNat % 256 ^ 2) = v := by
  rw [Nat.mod_eq_of_lt (show v.toNat < 256 ^ 2 from v.toNat_lt), UInt16.ofNat_toNat]

theorem ofNat_toNat_mod32 (v : UInt32) : UInt32.ofNat (v.toNat % 256 ^ 4) = v := by
  rw [Nat.mod_eq_of_lt (show v.toNat < 256 ^ 4 from v.toNat_lt), UInt32.ofNat_toNat]

theorem readDinode_writeDinode (x : Block) (i : Nat) (d : Dinode) : readDinode (writeDinode x i d) i = d := by
  have ho : i % IPB * 64 + 64 ≤ BSIZE := by
    simp only [IPB, BSIZE]
    omega
  have hlen : (List.ofFn fun k => (d.addrs k).toNat).length = 13 := by simp
  have haddr : ∀ k : Fin (NDIRECT + 1), (List.ofFn fun k => (d.addrs k).toNat).getD k 0 = (d.addrs k).toNat := fun k => by
    rw [List.getD_eq_getElem?_getD, List.getElem?_ofFn, dif_pos k.isLt]
    rfl
  unfold readDinode writeDinode
  generalize i % IPB * 64 = o at ho
  generalize (List.ofFn fun k => (d.addrs k).toNat) = as at hlen haddr
  obtain ⟨type, major, minor, nlink, size, addrs⟩ := d
  simp (disch := omega) only [Buffer.word_setWords_disjoint, Buffer.word_setWord_disjoint, Buffer.word_setWord_same,
    ofNat_toNat_mod16, ofNat_toNat_mod32, Dinode.mk.injEq, true_and]
  funext k
  rw [Buffer.word_setWords _ _ _ (by rw [hlen]; exact ho) (by rw [hlen]; exact k.isLt), haddr]
  exact ofNat_toNat_mod32 _

theorem readDinode_writeDinode_of_ne (x : Block) {i j : Nat} (d : Dinode) (h : j % IPB ≠ i % IPB) :
    readDinode (writeDinode x i d) j = readDinode x j := by
  have hapart : j % IPB * 64 + 64 ≤ i % IPB * 64 ∨ i % IPB * 64 + 64 ≤ j % IPB * 64 := by omega
  have hlen : (List.ofFn fun k => (d.addrs k).toNat).length = 13 := by simp
  unfold readDinode writeDinode
  generalize i % IPB * 64 = o at hapart
  generalize j % IPB * 64 = o' at hapart
  generalize (List.ofFn fun k => (d.addrs k).toNat) = as at hlen
  simp (disch := omega) only [Buffer.word_setWords_disjoint, Buffer.word_setWord_disjoint, Dinode.mk.injEq, true_and]
  funext k
  have hk : k.val < 13 := k.isLt
  simp (disch := omega) only [Buffer.word_setWords_disjoint, Buffer.word_setWord_disjoint]

/-! ### The image -/

namespace Superblock

/-- The number of blocks before the first data block. -/
def nmeta (sb : Superblock) : Nat := sb.bmapstart + sb.size / BPB + 1

/-- The layout that `mkfs` gives a disk: boot block, super block, log, inodes, bitmap, data. -/
structure Ok (sb : Superblock) : Prop where
  logstart : sb.logstart = 2
  inodestart : sb.inodestart = 2 + sb.nlog
  bmapstart : sb.bmapstart = sb.inodestart + sb.ninodes / IPB + 1
  fits : sb.nmeta ≤ sb.size
  small : sb.size < 2 ^ 31

variable {sb : Superblock}

theorem Ok.iblock_lt (ok : sb.Ok) {i : Nat} (hi : i < sb.ninodes) : 1 < sb.iblock i ∧ sb.iblock i < sb.bmapstart := by
  have hstart := ok.inodestart
  have hbmap := ok.bmapstart
  have hdiv : i / IPB ≤ sb.ninodes / IPB := Nat.div_le_div_right hi.le
  unfold iblock
  generalize i / IPB = m, sb.ninodes / IPB = n at hdiv hbmap
  omega

theorem bblock_lt {b : Nat} (hb : b < sb.size) :
    sb.bmapstart ≤ sb.bblock b ∧ sb.bblock b < sb.nmeta := by
  have hdiv : b / BPB ≤ sb.size / BPB := Nat.div_le_div_right hb.le
  unfold bblock nmeta
  generalize b / BPB = m, sb.size / BPB = n at hdiv
  omega

theorem nmeta_pos (sb : Superblock) : 0 < sb.nmeta := Nat.succ_pos _

theorem Ok.bmapstart_lt (ok : sb.Ok) : 1 < sb.bmapstart ∧ sb.bmapstart < sb.nmeta := by
  have hstart := ok.inodestart
  have hbmap := ok.bmapstart
  unfold nmeta
  generalize sb.ninodes / IPB = m at hbmap
  generalize sb.size / BPB = n
  omega

end Superblock

/-- The inodes, the map of used blocks and the data blocks of a disk. -/
structure Img where
  ino : Nat → Dinode
  used : Nat → Bool
  data : Nat → Block

def imgOf (sb : Superblock) (blk : Nat → Block) : Img where
  ino := fun j => if j < sb.ninodes then readDinode (blk (sb.iblock j)) j else { type := 0 }
  used := fun b => if b < sb.size then (blk (sb.bblock b)).bit (b % BPB) else true
  data := fun b => if sb.nmeta ≤ b then blk b else .zero

namespace Img

def setIno (g : Img) (i : Nat) (d : Dinode) : Img := { g with ino := update g.ino i d }

def setUsed (g : Img) (b : Nat) (u : Bool) : Img := { g with used := update g.used b u }

def write (g : Img) (b : Nat) (x : Block) : Img := { g with data := update g.data b x }

end Img

section Image
variable {sb : Superblock} {blk : Nat → Block}

theorem imgOf_write (ok : sb.Ok) {b : Nat} (hb : sb.nmeta ≤ b) (x : Block) :
    imgOf sb (update blk b x) = (imgOf sb blk).write b x := by
  have hlt := ok.bmapstart_lt
  simp only [imgOf, Img.write, Img.mk.injEq]
  refine ⟨funext fun j => ?_, funext fun c => ?_, funext fun c => ?_⟩
  · by_cases hj : j < sb.ninodes
    · have := (ok.iblock_lt hj).2
      rw [if_pos hj, if_pos hj, update_of_ne (by omega)]
    · rw [if_neg hj, if_neg hj]
  · by_cases hc : c < sb.size
    · have := (Superblock.bblock_lt hc).2
      rw [if_pos hc, if_pos hc, update_of_ne (by omega)]
    · rw [if_neg hc, if_neg hc]
  · by_cases hcb : c = b
    · subst hcb
      simp [hb]
    · rw [update_of_ne hcb, update_of_ne hcb]

theorem imgOf_writeDinode (ok : sb.Ok) {i : Nat} (hi : i < sb.ninodes) (d : Dinode) :
    imgOf sb (update blk (sb.iblock i) (writeDinode (blk (sb.iblock i)) i d)) = (imgOf sb blk).setIno i d := by
  have hlt := ok.iblock_lt hi
  have hmeta := ok.bmapstart_lt
  simp only [imgOf, Img.setIno, Img.mk.injEq]
  refine ⟨funext fun j => ?_, funext fun c => ?_, funext fun c => ?_⟩
  · by_cases hji : j = i
    · subst hji
      rw [if_pos hi, update_self, update_self, readDinode_writeDinode]
    · rw [update_of_ne hji]
      by_cases hj : j < sb.ninodes
      · rw [if_pos hj, if_pos hj]
        by_cases hblk : sb.iblock j = sb.iblock i
        · -- Two inodes of one block lie at different offsets.
          have hmod : j % IPB ≠ i % IPB := fun hmod => hji (by
            have hdiv : j / IPB = i / IPB := by simpa [Superblock.iblock] using hblk
            rw [← Nat.div_add_mod j IPB, ← Nat.div_add_mod i IPB, hdiv, hmod])
          rw [hblk, update_self, readDinode_writeDinode_of_ne _ _ hmod]
        · rw [update_of_ne hblk]
      · rw [if_neg hj, if_neg hj]
  · by_cases hc : c < sb.size
    · have := (Superblock.bblock_lt hc).1
      rw [if_pos hc, if_pos hc, update_of_ne (by omega)]
    · rw [if_neg hc, if_neg hc]
  · by_cases hc : sb.nmeta ≤ c
    · rw [if_pos hc, if_pos hc, update_of_ne (by omega)]
    · rw [if_neg hc, if_neg hc]

theorem imgOf_bitmap (ok : sb.Ok) {b : Nat} (hb : b < sb.size) {x : Block} {u : Bool} (hself : x.bit (b % BPB) = u)
    (hother : ∀ k, k ≠ b % BPB → x.bit k = (blk (sb.bblock b)).bit k) :
    imgOf sb (update blk (sb.bblock b) x) = (imgOf sb blk).setUsed b u := by
  have hlt := Superblock.bblock_lt hb
  simp only [imgOf, Img.setUsed, Img.mk.injEq]
  refine ⟨funext fun j => ?_, funext fun c => ?_, funext fun c => ?_⟩
  · by_cases hj : j < sb.ninodes
    · have := (ok.iblock_lt hj).2
      rw [if_pos hj, if_pos hj, update_of_ne (by omega)]
    · rw [if_neg hj, if_neg hj]
  · by_cases hcb : c = b
    · subst hcb
      rw [if_pos hb, update_self, update_self, hself]
    · rw [update_of_ne hcb]
      by_cases hc : c < sb.size
      · rw [if_pos hc, if_pos hc]
        by_cases hblk : sb.bblock c = sb.bblock b
        · have hmod : c % BPB ≠ b % BPB := fun hmod => hcb (by
            have hdiv : c / BPB = b / BPB := by simpa [Superblock.bblock] using hblk
            rw [← Nat.div_add_mod c BPB, ← Nat.div_add_mod b BPB, hdiv, hmod])
          rw [hblk, update_self, hother _ hmod]
        · rw [update_of_ne hblk]
      · rw [if_neg hc, if_neg hc]
  · by_cases hc : sb.nmeta ≤ c
    · rw [if_pos hc, if_pos hc, update_of_ne (by omega)]
    · rw [if_neg hc, if_neg hc]

theorem mod_bpb_div_lt (b : Nat) : b % BPB / 8 < BSIZE := by
  simp only [BPB, BSIZE]
  omega

theorem imgOf_setBit (ok : sb.Ok) {b : Nat} (hb : b < sb.size) :
    imgOf sb (update blk (sb.bblock b) ((blk (sb.bblock b)).setBit (b % BPB))) = (imgOf sb blk).setUsed b true := by
  refine imgOf_bitmap ok hb ?_ fun k hk => ?_
  · rw [Buffer.bit_setBit _ _ (mod_bpb_div_lt b)]
    simp
  · rw [Buffer.bit_setBit _ _ (mod_bpb_div_lt b)]
    simp [hk]

theorem imgOf_clearBit (ok : sb.Ok) {b : Nat} (hb : b < sb.size) :
    imgOf sb (update blk (sb.bblock b) ((blk (sb.bblock b)).clearBit (b % BPB))) =
      (imgOf sb blk).setUsed b false := by
  refine imgOf_bitmap ok hb ?_ fun k hk => ?_
  · rw [Buffer.bit_clearBit _ _ (mod_bpb_div_lt b)]
    simp
  · rw [Buffer.bit_clearBit _ _ (mod_bpb_div_lt b)]
    simp [hk]

end Image

/-! ### Places and pointers -/

instance : NeZero NINDIRECT := ⟨by decide⟩

/-- Where the number of a block can stand: in an inode, or in the indirect block of one. -/
inductive Place where
  | addr (i : Nat) (k : Fin (NDIRECT + 1))
  | entry (i : Nat) (j : Fin NINDIRECT)

def Place.inum : Place → Nat
  | .addr i _ => i
  | .entry i _ => i

def blockPlace (i bn : Nat) : Place :=
  if bn < NDIRECT then .addr i (Fin.ofNat (NDIRECT + 1) bn) else .entry i (Fin.ofNat NINDIRECT (bn - NDIRECT))

@[simp] theorem inum_blockPlace (i bn : Nat) : (blockPlace i bn).inum = i := by
  unfold blockPlace
  split <;> rfl

theorem blockPlace_ne_last (i j bn : Nat) : blockPlace i bn ≠ .addr j INDIRECT := by
  unfold blockPlace
  split
  · rename_i h
    intro heq
    have hval := congrArg Fin.val (Place.addr.inj heq).2
    simp only [Fin.ofNat, Fin.val_last] at hval
    rw [Nat.mod_eq_of_lt (by omega)] at hval
    omega
  · simp

theorem blockPlace_inj {i j bn bn' : Nat} (hbn : bn < MAXFILE) (hbn' : bn' < MAXFILE)
    (h : blockPlace i bn = blockPlace j bn') : i = j ∧ bn = bn' := by
  have hmax : MAXFILE = 140 := rfl
  have hdir : NDIRECT = 12 := rfl
  have hind : NINDIRECT = 128 := rfl
  unfold blockPlace at h
  split at h <;> split at h <;> simp only [Place.addr.injEq, Place.entry.injEq, reduceCtorEq, Fin.ofNat, Fin.mk.injEq] at h
  · rw [Nat.mod_eq_of_lt (by omega), Nat.mod_eq_of_lt (by omega)] at h
    exact h
  · rw [Nat.mod_eq_of_lt (by omega), Nat.mod_eq_of_lt (by omega)] at h
    omega

namespace Img

/-- Number `k` in inode `i`; an inode that is free has none. -/
def addr (g : Img) (i : Nat) (k : Fin (NDIRECT + 1)) : Nat :=
  if (g.ino i).type = 0 then 0 else ((g.ino i).addrs k).toNat

/-- The block number at a place, `0` for none. -/
def ptr (g : Img) : Place → Nat
  | .addr i k => g.addr i k
  | .entry i j =>
    if g.addr i INDIRECT = 0 then 0 else (g.data (g.addr i INDIRECT)).word 4 (4 * j)

/-- Every used block is a metadata block, at one place, or in `flight`. -/
def Owned (sb : Superblock) (g : Img) (flight : Set Nat) : Prop := Owns sb.nmeta sb.size g.ptr g.used flight

def byteAt (g : Img) (i p : Nat) : UInt8 := (g.data (g.ptr (blockPlace i (p / BSIZE)))).byte (p % BSIZE)

def contents (g : Img) (i : Nat) : List UInt8 := (List.range (g.ino i).size.toNat).map (g.byteAt i)

/-- A file has all blocks that its size needs. -/
structure NoHole (g : Img) (i : Nat) : Prop where
  size_le : (g.ino i).size.toNat ≤ MAXFILE * BSIZE
  alloc : ∀ bn, bn * BSIZE < (g.ino i).size.toNat → g.ptr (blockPlace i bn) ≠ 0

variable {sb : Superblock} {g : Img} {flight : Set Nat} {i b : Nat} {x : Block} {d : Dinode}

@[simp] theorem data_write_self : (g.write b x).data b = x := update_self ..

theorem data_write_of_ne {c : Nat} (h : c ≠ b) : (g.write b x).data c = g.data c := update_of_ne h _ _

@[simp] theorem ino_setIno_self : (g.setIno i d).ino i = d := update_self ..

theorem ino_setIno_of_ne {j : Nat} (h : j ≠ i) : (g.setIno i d).ino j = g.ino j := update_of_ne h ..

@[simp] theorem addr_write (k : Fin (NDIRECT + 1)) : (g.write b x).addr i k = g.addr i k := rfl

@[simp] theorem ptr_setUsed (u : Bool) (p : Place) : (g.setUsed b u).ptr p = g.ptr p := by
  cases p <;> rfl

theorem addr_setIno (k : Fin (NDIRECT + 1)) : (g.setIno i d).addr i k = if d.type = 0 then 0 else (d.addrs k).toNat := by
  simp [addr, setIno]

theorem ptr_setIno_of_ne {p : Place} (h : p.inum ≠ i) : (g.setIno i d).ptr p = g.ptr p := by
  have haddr : ∀ j k, j ≠ i → (g.setIno i d).addr j k = g.addr j k := fun j k hj => by
    simp only [addr, setIno, update_of_ne hj]
  cases p with
  | addr j k => exact haddr j k h
  | entry j k =>
    rw [ptr, ptr, haddr j _ h]
    rfl

theorem ptr_entry_zero {j : Fin NINDIRECT} (h : g.addr i INDIRECT = 0) : g.ptr (.entry i j) = 0 := if_pos h

theorem ptr_entry {j : Fin NINDIRECT} (h : g.addr i INDIRECT ≠ 0) :
    g.ptr (.entry i j) = (g.data (g.addr i INDIRECT)).word 4 (4 * j) := if_neg h

theorem ptr_write (h : ∀ j, g.addr j INDIRECT ≠ 0 → g.addr j INDIRECT ≠ b) (p : Place) :
    (g.write b x).ptr p = g.ptr p := by
  cases p with
  | addr j k => rfl
  | entry j k =>
    by_cases hz : g.addr j INDIRECT = 0
    · rw [ptr_entry_zero hz, ptr_entry_zero (g := g.write b x) hz]
    · rw [ptr_entry hz, ptr_entry (g := g.write b x) hz, addr_write, data_write_of_ne (h j hz)]

theorem ptr_setIno_same (htype : d.type = (g.ino i).type) (haddrs : d.addrs = (g.ino i).addrs) (p : Place) :
    (g.setIno i d).ptr p = g.ptr p := by
  have haddr : ∀ k, (g.setIno i d).addr i k = g.addr i k := fun k => by rw [addr_setIno, htype, haddrs, addr]
  by_cases hp : p.inum = i
  · cases p with
    | addr j k =>
      obtain rfl : j = i := hp
      exact haddr k
    | entry j k =>
      obtain rfl : j = i := hp
      rw [ptr, ptr, haddr]
      rfl
  · exact ptr_setIno_of_ne hp

theorem Owned.not_indirect (h : g.Owned sb flight) {j bn : Nat} (hb : g.ptr (blockPlace j bn) ≠ 0) (i : Nat) :
    g.addr i INDIRECT ≠ g.ptr (blockPlace j bn) := fun heq =>
  blockPlace_ne_last j i bn (h.inj _ (.addr i INDIRECT) hb heq.symm)

theorem Owned.alloc (h : g.Owned sb flight) (hb : b < sb.size) (hfree : g.used b = false) :
    ((g.setUsed b true).write b .zero).Owned sb (insert b flight) ∧
      (∀ p, ((g.setUsed b true).write b .zero).ptr p = g.ptr p) ∧ b ∉ flight := by
  obtain ⟨-, hptr, hnot⟩ := h.not_used hb hfree
  have hsame : ∀ p, ((g.setUsed b true).write b .zero).ptr p = g.ptr p := fun p => by
    rw [ptr_write (g := g.setUsed b true) fun j hj => hptr (.addr j INDIRECT) hj, ptr_setUsed]
  refine ⟨?_, hsame, hnot⟩
  unfold Owned
  rw [funext hsame]
  exact Owns.alloc h hb hfree

theorem Owned.write (h : g.Owned sb flight) {j bn : Nat} (hb : g.ptr (blockPlace j bn) ≠ 0) (x : Block) :
    (g.write (g.ptr (blockPlace j bn)) x).Owned sb flight ∧
      ∀ p, (g.write (g.ptr (blockPlace j bn)) x).ptr p = g.ptr p := by
  have hsame := ptr_write (x := x) fun i _ => h.not_indirect hb i
  refine ⟨?_, hsame⟩
  unfold Owned
  rw [funext hsame]
  exact h

theorem Owned.setAddr {k : Fin (NDIRECT + 1)} (h : g.Owned sb (insert b flight)) (hsmall : sb.size < 2 ^ 31)
    (hb : b ∉ flight) (htype : (g.ino i).type ≠ 0) (hk : (g.ino i).addrs k = 0)
    (hzero : k = INDIRECT → g.data b = .zero)
    (hd : d = { g.ino i with addrs := update (g.ino i).addrs k (.ofNat b) }) :
    (g.setIno i d).Owned sb flight ∧ (g.setIno i d).ptr (.addr i k) = b ∧
      ∀ p, p ≠ .addr i k → (g.setIno i d).ptr p = g.ptr p := by
  have hb32 : (UInt32.ofNat b).toNat = b := by
    have := (h.inFlight b (Set.mem_insert b flight)).2
    exact UInt32.toNat_ofNat_of_lt' (by simp only [UInt32.size]; omega)
  have hself : (g.setIno i d).addr i k = b := by
    rw [addr_setIno, hd, if_neg htype]
    simp [hb32]
  have haddr : ∀ k', k' ≠ k → (g.setIno i d).addr i k' = g.addr i k' := fun k' hk' => by
    rw [addr_setIno, hd, if_neg htype, addr, if_neg htype]
    simp [hk']
  have hother : ∀ p, p ≠ .addr i k → (g.setIno i d).ptr p = g.ptr p := by
    intro p hp
    by_cases hpi : p.inum = i
    · cases p with
      | addr j k' =>
        obtain rfl : j = i := hpi
        exact haddr k' fun hk' => hp (by rw [hk'])
      | entry j m =>
        obtain rfl : j = i := hpi
        by_cases hlast : k = INDIRECT
        · -- There was no indirect block, and the new one has no entries.
          subst hlast
          have hzero' : g.addr j INDIRECT = 0 := by simp [addr, hk]
          rw [ptr_entry_zero hzero']
          by_cases hb0 : b = 0
          · exact ptr_entry_zero (hself.trans hb0)
          · rw [ptr_entry (by rw [hself]; exact hb0), hself]
            show (g.data b).word 4 _ = 0
            rw [hzero rfl, Buffer.word_zero]
        · rw [ptr, ptr, haddr _ (Ne.symm hlast)]
          rfl
    · exact ptr_setIno_of_ne hpi
  have hnone : g.ptr (.addr i k) = 0 := by simp [ptr, addr, hk]
  exact ⟨Owns.gain h hb sb.nmeta_pos hnone (show (g.setIno i d).ptr (.addr i k) = b from hself) hother, hself, hother⟩

theorem Owned.setEntry {j : Fin NINDIRECT} (h : g.Owned sb (insert b flight)) (hsmall : sb.size < 2 ^ 31)
    (hb : b ∉ flight) (ha : g.addr i INDIRECT ≠ 0) (hj : g.ptr (.entry i j) = 0)
    (hx : x = (g.data (g.addr i INDIRECT)).setWord 4 (4 * j) b) :
    (g.write (g.addr i INDIRECT) x).Owned sb flight ∧
      (g.write (g.addr i INDIRECT) x).ptr (.entry i j) = b ∧
      ∀ p, p ≠ .entry i j → (g.write (g.addr i INDIRECT) x).ptr p = g.ptr p := by
  have hb32 : b % 256 ^ 4 = b := Nat.mod_eq_of_lt (by
    have := (h.inFlight b (Set.mem_insert b flight)).2
    omega)
  have hfit : ∀ m : Fin NINDIRECT, 4 * m.val + 4 ≤ BSIZE := fun m => by
    have : m.val < 128 := m.isLt
    simp only [BSIZE]
    omega
  have hself : (g.write (g.addr i INDIRECT) x).ptr (.entry i j) = b := by
    rw [ptr_entry (by exact ha), addr_write, data_write_self, hx, Buffer.word_setWord_same _ _ (hfit j), hb32]
  have hother : ∀ p, p ≠ .entry i j → (g.write (g.addr i INDIRECT) x).ptr p = g.ptr p := by
    intro p hp
    cases p with
    | addr i' k => rfl
    | entry i' m =>
      by_cases hz : g.addr i' INDIRECT = 0
      · rw [ptr_entry_zero hz, ptr_entry_zero (by exact hz)]
      · rw [ptr_entry hz, ptr_entry (by exact hz), addr_write]
        by_cases hii : i' = i
        · subst hii
          have hmj : m.val ≠ j.val := fun hmj => hp (by rw [Fin.ext hmj])
          rw [data_write_self, hx, Buffer.word_setWord_disjoint _ _ (by omega)]
        · -- No two inodes have one indirect block.
          have hne : g.addr i' INDIRECT ≠ g.addr i INDIRECT := fun heq =>
            hii (Place.addr.inj (h.inj (.addr i' INDIRECT) (.addr i INDIRECT) hz heq)).1
          rw [data_write_of_ne hne]
  exact ⟨Owns.gain h hb sb.nmeta_pos hj hself hother, hself, hother⟩

end Img

end Xv6
