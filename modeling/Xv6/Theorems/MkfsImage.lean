import Xv6.Theorems.Mkfs
import Xv6.Theorems.FsTight
import Xv6.Theorems.Dirs

/-! What is on the image while `mkfs` adds one file after the other. -/

namespace Xv6
open Bytes Ownership
open Function (update update_idem)
open Outcome (ok_bind)

/-! ### Blocks that a file needs -/

/-- The blocks of a file of `k` bytes, its indirect block counted. -/
def Fs.needed (k : Nat) : Nat := Fs.blocks k + if NDIRECT < Fs.blocks k then 1 else 0

theorem Fs.blocks_mono {k k' : Nat} (h : k ≤ k') : Fs.blocks k ≤ Fs.blocks k' := by
  simp only [Fs.blocks, BSIZE]
  omega

theorem Fs.needed_mono {k k' : Nat} (h : k ≤ k') : Fs.needed k ≤ Fs.needed k' := by
  have := Fs.blocks_mono h
  unfold Fs.needed
  split <;> split <;> omega

theorem Img.NoHole.lacking_le {g : Img} {i k : Nat} (h : g.NoHole i) (hk : (g.ino i).size.toNat ≤ k) :
    g.lacking i (Fs.blocks k) + Fs.needed (g.ino i).size.toNat ≤ Fs.needed k := by
  have halloc := h.alloc
  generalize (g.ino i).size.toNat = size at hk halloc ⊢
  have hle := Fs.blocks_mono hk
  have hhas : ∀ bn, bn < Fs.blocks size → g.missing (blockPlace i bn) = 0 := fun bn hbn =>
    Img.missing_of_ne (halloc bn (Fs.lt_blocks.mp hbn))
  have hsum : ∑ bn ∈ Finset.range (Fs.blocks k), g.missing (blockPlace i bn) ≤ Fs.blocks k - Fs.blocks size := by
    rw [← Finset.sum_range_add_sum_Ico _ hle, Finset.sum_eq_zero fun bn hbn => hhas bn (Finset.mem_range.mp hbn), Nat.zero_add]
    refine (Finset.sum_le_card_nsmul _ _ 1 fun bn _ => ?_).trans (by simp)
    unfold Img.missing
    split <;> omega
  have hind : NDIRECT < Fs.blocks size → g.missing (.addr i INDIRECT) = 0 := fun hlt => by
    have := halloc NDIRECT (Fs.lt_blocks.mp hlt)
    rw [Fs.blockPlace_indirect (Nat.lt_irrefl NDIRECT)] at this
    exact Img.missing_of_ne (p := .addr i INDIRECT) fun hz => this (Img.ptr_entry_zero hz)
  have hone : g.missing (.addr i INDIRECT) ≤ 1 := by
    unfold Img.missing
    split <;> omega
  unfold Img.lacking Fs.needed
  by_cases hold : NDIRECT < Fs.blocks size
  · rw [if_pos hold, if_pos (lt_of_lt_of_le hold hle), if_pos (lt_of_lt_of_le hold hle), hind hold]
    omega
  · rw [if_neg hold]
    split <;> omega

namespace Mkfs
variable {n inum : Nat} {m m' : Mkfs} {din : Dinode} {logged : List Nat}

/-! ### Inodes -/

/-- The disk as `mkfs` has it, with nothing in the cache. -/
abbrev bare (n : Nat) (m : Mkfs) : Fs := disk n m (fun _ => noInode) []

theorem iblock_range (hn : Fits n) (hi : inum < n) : 32 ≤ sb.iblock inum ∧ sb.iblock inum < 58 := by
  have hstart : sb.inodestart = 32 := by decide
  unfold Superblock.iblock
  rw [hstart]
  unfold Fits at hn
  simp only [IPB, BSIZE] at *
  omega

theorem ino_bare (hn : Fits n) (hi : inum < n) :
    (bare n m).img.ino inum = readDinode (m.blk (sb.iblock inum)) inum := by
  have hr := iblock_range hn hi
  have hino : (bare n m).img.ino inum = readDinode ((bare n m).blk (sb.iblock inum)) inum := if_pos hi
  have := bmapstart_eq
  rw [hino, blk_disk (by omega) (by omega)]

theorem rinode_eq (c : Clean m) (hn : Fits n) (hi : inum < n) : m.rinode inum = .ok ((bare n m).img.ino inum) := by
  have hr := iblock_range hn hi
  have hlt : sb.iblock inum < FSSIZE := lt_trans hr.2 (by decide)
  rw [rinode, rsect_eq c hlt, ino_bare hn hi]
  rfl

def putInode (m : Mkfs) (inum : Nat) (d : Dinode) : Mkfs :=
  { m with blk := update m.blk (sb.iblock inum) (writeDinode (m.blk (sb.iblock inum)) inum d) }

theorem winode_eq (c : Clean m) (hn : Fits n) (hi : inum < n) (d : Dinode) : m.winode inum d = .ok (m.putInode inum d) := by
  have hr := iblock_range hn hi
  have hlt : sb.iblock inum < FSSIZE := lt_trans hr.2 (by decide)
  rw [winode, rsect_eq c hlt, ok_bind, wsect_eq c hlt]
  rfl

theorem Clean.putInode (c : Clean m) (hn : Fits n) (hi : inum < n) (d : Dinode) : Clean (m.putInode inum d) := by
  have hr := iblock_range hn hi
  have hlo := c.lo
  rw [nmeta_eq] at hlo
  exact c.write (by omega) (by omega) _

theorem logWrite_inode (hn : Fits n) (hi : inum < n) (inode : InodeIdx → Inode) (d : Dinode) :
    (disk n m inode logged).logWrite ((disk n m inode logged).sb.iblock inum)
      (writeDinode ((disk n m inode logged).blk ((disk n m inode logged).sb.iblock inum)) inum d) = disk n (m.putInode inum d) inode (sb.iblock inum :: logged) := by
  have hr := iblock_range hn hi
  have hib : (disk n m inode logged).sb.iblock inum = sb.iblock inum := rfl
  have := bmapstart_eq
  rw [hib, blk_disk (by omega) (by omega), logWrite_disk (by omega) (by omega)]
  rfl

theorem sbWith_ok (hn : Fits n) : (sbWith n).Ok where
  logstart := rfl
  inodestart := rfl
  bmapstart := by
    have h : (sbWith n).ninodes / IPB = 25 := hn
    rw [h]
    rfl
  fits := by
    rw [nmeta_sbWith]
    exact show 59 ≤ FSSIZE by decide
  small := show FSSIZE < 2 ^ 31 by decide

theorem img_putInode (hn : Fits n) (hi : inum < n) (d : Dinode) :
    (bare n (m.putInode inum d)).img = (bare n m).img.setIno inum d := by
  have himg : (bare n (m.putInode inum d)).img = (disk n (m.putInode inum d) (fun _ => noInode) [sb.iblock inum]).img := rfl
  rw [himg, ← logWrite_inode hn hi]
  exact imgOf_writeDinode (sbWith_ok hn) hi d

theorem wf_disk {inode : InodeIdx → Inode} (wf : (disk n m inode logged).Wf) (logged' : List Nat) : (disk n m inode logged').Wf :=
  ⟨⟨wf.super.ok, wf.super.block, wf.super.disk⟩, wf.owned, wf.noHole, wf.slot, wf.synced, wf.uniq⟩

/-! ### The state between two steps -/

/-- The disk is in order, and the inodes not given out yet are free. -/
structure Ready (n : Nat) (m : Mkfs) : Prop where
  clean : Clean m
  wf : (bare n m).Wf
  tight : ∀ j, (bare n m).img.Tight j
  fresh : ∀ j, j = 0 ∨ m.freeinode ≤ j → (bare n m).img.ino j = { type := 0 }

theorem free_bare (c : Clean m) : (bare n m).free = FSSIZE - m.freeblock := by
  have hset : (Finset.range FSSIZE).filter (fun b => (bare n m).img.used b = false) =
      (Finset.range FSSIZE).filter fun b => ¬b < m.freeblock := by
    refine Finset.filter_congr fun b hb => ?_
    rw [used_disk c (Finset.mem_range.mp hb), decide_eq_false_iff_not]
  have hico : (Finset.range FSSIZE).filter (fun b => ¬b < m.freeblock) = Finset.Ico m.freeblock FSSIZE := by
    ext b
    simp only [Finset.mem_filter, Finset.mem_range, Finset.mem_Ico]
    omega
  unfold Fs.free freeCount
  rw [show (bare n m).sb.size = FSSIZE from rfl, hset, hico, Nat.card_Ico]

theorem Ready.held (r : Ready n m) (hi : inum < n) (htype : ((bare n m).img.ino inum).type ≠ 0) :
    (held n m inum ((bare n m).img.ino inum) []).Wf ∧ (held n m inum ((bare n m).img.ino inum) []).Locked 0 := by
  refine ⟨r.wf.setInode (i := 0) (fun _ => ⟨rfl, hi⟩) (fun _ _ => ⟨rfl, htype⟩) fun _ j _ hj => ?_, ?_⟩
  · exact absurd hj (Nat.lt_irrefl 0)
  · unfold Fs.Locked
    rw [show (Mkfs.held n m inum ((bare n m).img.ino inum) []).inode 0 = _ from slots_zero]
    exact ⟨Nat.one_pos, rfl, rfl⟩

theorem bare_wf (wf : (held n m inum din logged).Wf) : (bare n m).Wf := by
  have hdrop : (held n m inum din logged).setInode 0 noInode = disk n m (fun _ => noInode) logged := by
    unfold Fs.setInode
    rw [show (held n m inum din logged).inode = update (fun _ => noInode) 0 _ from rfl, update_idem,
      Function.update_eq_self_iff.mpr rfl]
    rfl
  have hwf : (disk n m (fun _ => noInode) logged).Wf := by
    rw [← hdrop]
    exact wf.setInode (fun h => absurd h (Nat.lt_irrefl 0)) (fun h => absurd h (Nat.lt_irrefl 0)) fun h => absurd h (Nat.lt_irrefl 0)
  exact wf_disk hwf []

/-! ### `iappend` -/

theorem map_getD_range (p : List UInt8) : (List.range p.length).map (fun j => p.getD j 0) = p := by
  refine List.ext_getElem (by simp) fun j _ h => ?_
  simp [List.getD, h]

theorem setSize_held (size : UInt32) :
    (held n m inum din logged).setInode 0 { (held n m inum din logged).inode 0 with size := size } = held n m inum { din with size := size } logged := by
  have hslots : update (slots inum din) 0 { slots inum din 0 with size := size } = slots inum { din with size := size } := by
    rw [slots_zero, slots, update_idem]
    rfl
  exact congrArg (disk n m · logged) hslots

theorem iupdate_held (hn : Fits n) (hi : inum < n) :
    (held n m inum din logged).iupdate 0 = .ok (held n (m.putInode inum din) inum din (sb.iblock inum :: logged)) := by
  have hr := iblock_range hn hi
  have hslot : (held n m inum din logged).inode 0 = _ := slots_zero
  have hread : (held n m inum din logged).bread ROOTDEV ((held n m inum din logged).sb.iblock inum) = .ok _ :=
    bread_disk (lt_trans hr.2 (by decide))
  rw [Fs.iupdate, hslot]
  dsimp only
  rw [hread, ok_bind]
  exact congrArg Outcome.ok (logWrite_inode hn hi _ din)

theorem iappend_matches {p : List UInt8} (devsw : DevSw) (r : Ready n m) (hn : Fits n) (hi : inum < n)
    (hdin : din = (bare n m).img.ino inum) (htype : din.type ≠ 0) (hdev : din.type.toNat ≠ T_DEV) (hne : p ≠ [])
    (hmax : din.size.toNat + p.length ≤ MAXFILE * BSIZE) :
    Outcome.Matches (fun m' r => (∃ din' logged', r = ((p.length : Int), held n m' inum din' logged')) ∧ Clean m' ∧ m'.freeinode = m.freeinode)
      (m.iappend inum p)
      ((held n m inum din []).writei devsw 0 (fun j => p.getD j 0) din.size (.ofNat p.length)) := by
  have hslot : (held n m inum din []).inode 0 = _ := slots_zero
  have hlen : (UInt32.ofNat p.length).toNat = p.length := UInt32.toNat_ofNat_of_lt' (lt_of_le_of_lt (by omega) (show MAXFILE * BSIZE < _ by decide))
  have hpos : 0 < p.length := List.length_pos_iff.mpr hne
  obtain ⟨wf, hl⟩ := r.held hi (by rw [← hdin]; exact htype)
  rw [← hdin] at wf hl
  have hrej : ¬Fs.Rejects ((held n m inum din []).inode 0).size.toNat din.size.toNat (UInt32.ofNat p.length).toNat := by
    rw [hslot, hlen]
    simp only [Fs.Rejects, MAXFILE, NINDIRECT, NDIRECT, BSIZE] at *
    omega
  rw [iappend, rinode_eq r.clean hn hi, ← hdin, ok_bind, Fs.writei_accept (by rw [hslot]; exact hdev) hrej, hlen]
  have hbytes : p = (List.range (p.length - 0)).map fun j => p.getD (0 + j) 0 := by
    simp only [Nat.sub_zero, Nat.zero_add]
    exact (map_getD_range p).symm
  refine ((iappendLoop_matches p.length m din _ _ 0 p hbytes (Nat.zero_le _) (by omega) r.clean (wf.working hl)).and
    (Fs.writeiLoop_spec (le_refl MAXFILE) p.length _ din.size.toNat 0 (wf.working hl) (by omega) (Nat.zero_le _) (by omega))).bind ?_
  rintro ⟨off, m', din'⟩ ⟨off', fs'⟩ ⟨⟨⟨logged', heq⟩, c', hfree⟩, hoff, hwrote, -⟩
  obtain ⟨rfl, rfl⟩ := Prod.mk.inj heq
  dsimp only at hoff hwrote c' hfree ⊢
  have hslot' : (held n m' inum din' logged').inode 0 = _ := slots_zero
  have hsize : din'.size = din.size := by
    have hsize := congrArg (fun ip : Inode => ip.size) hwrote.slot
    simpa [hslot', hslot] using hsize
  have hgrow : 0 < UInt32.ofNat p.length ∧ ((held n m' inum din' logged').inode 0).size.toNat < off' := by
    rw [UInt32.lt_iff_toNat_lt, hlen, hslot']
    dsimp only
    rw [hsize]
    exact ⟨hpos, by omega⟩
  rw [if_pos hgrow, winode_eq c' hn hi, setSize_held, iupdate_held hn hi]
  exact ⟨⟨_, _, rfl⟩, c'.putInode hn hi _, hfree⟩

/-- `p` has been appended to file `inum`; nothing else has changed. -/
structure Appended (n : Nat) (m m' : Mkfs) (inum : Nat) (p : List UInt8) : Prop extends Ready n m' where
  freeinode : m'.freeinode = m.freeinode
  ino : ∃ size addrs, (bare n m').img.ino inum = { (bare n m).img.ino inum with size := size, addrs := addrs }
  contents : (bare n m').img.contents inum = (bare n m).img.contents inum ++ p
  others : ∀ j, j ≠ inum → (bare n m').img.ino j = (bare n m).img.ino j ∧ (bare n m').img.contents j = (bare n m).img.contents j
  blocks : m'.freeblock + Fs.needed ((bare n m).img.ino inum).size.toNat ≤
    m.freeblock + Fs.needed (((bare n m).img.ino inum).size.toNat + p.length)

theorem length_contents (g : Img) (i : Nat) : (g.contents i).length = (g.ino i).size.toNat := by simp [Img.contents]

theorem Appended.size {p : List UInt8} (a : Appended n m m' inum p) :
    ((bare n m').img.ino inum).size.toNat = ((bare n m).img.ino inum).size.toNat + p.length := by
  rw [← length_contents, a.contents, List.length_append, length_contents]

theorem Appended.refl (r : Ready n m) (inum : Nat) : Appended n m m inum [] where
  toReady := r
  freeinode := rfl
  ino := ⟨_, _, rfl⟩
  contents := (List.append_nil _).symm
  others := fun _ _ => ⟨rfl, rfl⟩
  blocks := le_rfl

theorem Appended.trans {m'' : Mkfs} {p q : List UInt8} (a : Appended n m m' inum p) (a' : Appended n m' m'' inum q) :
    Appended n m m'' inum (p ++ q) where
  toReady := a'.toReady
  freeinode := a'.freeinode.trans a.freeinode
  ino := by
    obtain ⟨size, addrs, h⟩ := a.ino
    obtain ⟨size', addrs', h'⟩ := a'.ino
    exact ⟨size', addrs', by rw [h', h]⟩
  contents := by rw [a'.contents, a.contents, List.append_assoc]
  others := fun j hj => ⟨((a'.others j hj).1).trans (a.others j hj).1, ((a'.others j hj).2).trans (a.others j hj).2⟩
  blocks := by
    have h := a.blocks
    have h' := a'.blocks
    rw [a.size] at h'
    rw [List.length_append, ← Nat.add_assoc]
    omega

/-- Why `mkfs` cannot append `k` bytes to a file of size `size`. -/
def Full (m : Mkfs) (size k : Nat) : Prop :=
  MAXFILE * BSIZE < size + k ∨ FSSIZE + Fs.needed size < m.freeblock + Fs.needed (size + k)

def IsFile (n : Nat) (m : Mkfs) (inum : Nat) : Prop :=
  inum < n ∧ ((bare n m).img.ino inum).type ≠ 0 ∧ ((bare n m).img.ino inum).type.toNat ≠ T_DEV

theorem Appended.isFile {p : List UInt8} (a : Appended n m m' inum p) (h : IsFile n m inum) : IsFile n m' inum := by
  obtain ⟨size, addrs, hino⟩ := a.ino
  unfold IsFile
  rw [hino]
  exact h

theorem Appended.of_written {p : List UInt8} {din' : Dinode} {logged' : List Nat} (r : Ready n m)
    (htype : ((bare n m).img.ino inum).type ≠ 0) (c' : Clean m') (hfree : m'.freeinode = m.freeinode)
    (htight : ∀ j, (bare n m').img.Tight j)
    (hw : Fs.Written (held n m inum ((bare n m).img.ino inum) []) (held n m' inum din' logged') 0 (fun j => p.getD j 0)
      ((bare n m).img.ino inum).size.toNat p.length)
    (hlack : (bare n m).img.lacking inum (Fs.blocks (((bare n m).img.ino inum).size.toNat + p.length)) +
      Fs.needed ((bare n m).img.ino inum).size.toNat ≤ Fs.needed (((bare n m).img.ino inum).size.toNat + p.length)) :
    Appended n m m' inum p := by
  have hslot : (held n m inum ((bare n m).img.ino inum) []).inode 0 = _ := slots_zero
  have hslot' : (held n m' inum din' logged').inode 0 = _ := slots_zero
  have hinum : ((held n m inum ((bare n m).img.ino inum) []).inode 0).inum = inum := by rw [hslot]
  have hothers : ∀ j, j ≠ inum → (bare n m').img.ino j = (bare n m).img.ino j ∧
      (bare n m').img.contents j = (bare n m).img.contents j := fun j hj => hw.others j (by rw [hinum]; exact hj)
  refine ⟨⟨c', bare_wf hw.wf, htight, fun j hj => ?_⟩, hfree, ?_, ?_, hothers, ?_⟩
  · have hji : j ≠ inum := by
      rintro rfl
      exact htype (by rw [r.fresh j (by rw [← hfree]; exact hj)])
    rw [(hothers j hji).1]
    exact r.fresh j (by rw [← hfree]; exact hj)
  · obtain ⟨size, addrs, heq⟩ := hw.slot
    have hsync := (hw.wf.synced 0 (by rw [hslot']; exact Nat.one_pos) (by rw [hslot'])).1
    rw [heq, hslot] at hsync
    exact ⟨size, addrs, hsync⟩
  · have hcont := hw.contents
    rw [hinum] at hcont
    have htake : ((bare n m).img.contents inum).take ((bare n m).img.ino inum).size.toNat = (bare n m).img.contents inum :=
      List.take_of_length_le (length_contents _ _).le
    have hdrop : ((bare n m).img.contents inum).drop (((bare n m).img.ino inum).size.toNat + p.length) = [] :=
      List.drop_eq_nil_of_le (by rw [length_contents]; omega)
    refine hcont.trans ?_
    change ((bare n m).img.contents inum).take _ ++ _ ++ ((bare n m).img.contents inum).drop _ = _
    rw [htake, hdrop, map_getD_range, List.append_nil]
  · have hcount := hw.free
    rw [hinum] at hcount
    change (bare n m').free + (bare n m).img.lacking inum _ = (bare n m).free at hcount
    have := c'.hi
    have := r.clean.hi
    rw [free_bare c', free_bare r.clean] at hcount
    omega

theorem iappend_spec {p : List UInt8} (r : Ready n m) (hn : Fits n) (hf : IsFile n m inum) (hne : p ≠ []) :
    (m.iappend inum p).Spec (fun m' => Appended n m m' inum p)
      fun _ => Full m ((bare n m).img.ino inum).size.toNat p.length := by
  obtain ⟨hi, htype, hdev⟩ := hf
  by_cases hmax : ((bare n m).img.ino inum).size.toNat + p.length ≤ MAXFILE * BSIZE
  · obtain ⟨wf, hl⟩ := r.held hi htype
    have hslot : (held n m inum ((bare n m).img.ino inum) []).inode 0 = _ := slots_zero
    have hlen : (UInt32.ofNat p.length).toNat = p.length :=
      UInt32.toNat_ofNat_of_lt' (lt_of_le_of_lt (by omega) (show MAXFILE * BSIZE < _ by decide))
    have hrej : ¬Fs.Rejects ((held n m inum ((bare n m).img.ino inum) []).inode 0).size.toNat
        ((bare n m).img.ino inum).size.toNat (UInt32.ofNat p.length).toNat := by
      rw [hslot, hlen]
      simp only [Fs.Rejects, MAXFILE, NINDIRECT, NDIRECT, BSIZE] at *
      omega
    have hwrite := @Fs.writei_spec _ 0 (fun j => p.getD j 0) _ _ ⟨fun _ => none, fun _ => none⟩ wf hl
      (by rw [hslot]; exact hdev) hrej
    have hlack := (r.wf.noHole inum htype hdev).lacking_le (Nat.le_add_right _ p.length)
    have htight : ∀ j, (held n m inum ((bare n m).img.ino inum) []).img.Tight j := r.tight
    replace hwrite := hwrite.and (Fs.writei_tight wf hl htight)
    rw [hlen, hslot] at hwrite
    refine ((iappend_matches ⟨fun _ => none, fun _ => none⟩ r hn hi rfl htype hdev hne hmax).spec hwrite).mono ?_ ?_
    · rintro m' ⟨-, ⟨⟨din', logged', rfl⟩, c', hfree⟩, ⟨-, hw⟩, htight'⟩
      exact Appended.of_written r htype c' hfree htight' hw hlack
    · rintro - ⟨o, -, hroom⟩
      right
      have hfull : (bare n m).free < (bare n m).img.lacking inum (Fs.blocks (((bare n m).img.ino inum).size.toNat + p.length)) := hroom
      have hhi := r.clean.hi
      rw [free_bare r.clean] at hfull
      omega
  · rw [iappend, rinode_eq r.clean hn hi, ok_bind]
    have hloop := iappendLoop_le p.length m ((bare n m).img.ino inum) ((bare n m).img.ino inum).size.toNat p hne le_rfl
    exact Outcome.Spec.bind (Outcome.Spec.mono hloop (fun _ h => hmax h) fun _ _ => Or.inl (not_le.mp hmax)) fun _ h => h.elim

/-! ### One file after the other -/

theorem Full.mono {size k k' : Nat} (h : k ≤ k') : Full m size k → Full m size k' := by
  have := Fs.needed_mono (Nat.add_le_add_left h size)
  rintro (hmax | hroom)
  · exact Or.inl (by omega)
  · exact Or.inr (by omega)

theorem Full.of_appended {p : List UInt8} {k : Nat} (a : Appended n m m' inum p)
    (h : Full m' ((bare n m').img.ino inum).size.toNat k) : Full m ((bare n m).img.ino inum).size.toNat (p.length + k) := by
  have hblocks := a.blocks
  unfold Full at *
  rw [a.size] at h
  rw [← Nat.add_assoc]
  omega

theorem appendAll_spec (hn : Fits n) : ∀ (left : Nat) (m : Mkfs) (data : List UInt8), Ready n m → IsFile n m inum →
    data.length ≤ left → (appendAll inum left m data).Spec (fun m' => Appended n m m' inum data)
      fun _ => Full m ((bare n m).img.ino inum).size.toNat data.length
  | 0, m, data, r, _, hleft => by
    obtain rfl : data = [] := List.length_eq_zero_iff.mp (Nat.le_zero.mp hleft)
    exact .refl r inum
  | left + 1, m, data, r, hf, hleft => by
    rw [appendAll]
    split
    · rename_i hnil
      subst hnil
      exact .refl r inum
    · rename_i hne
      have hpos : 0 < data.length := List.length_pos_iff.mpr hne
      have htake : data.take BSIZE ≠ [] := fun h => by
        rw [List.take_eq_nil_iff] at h
        exact h.elim (by decide) hne
      have hsplit : (data.take BSIZE).length + (data.drop BSIZE).length = data.length := by
        rw [← List.length_append, List.take_append_drop]
      have hlen : 0 < (data.take BSIZE).length := List.length_pos_iff.mpr htake
      refine Outcome.Spec.bind ((iappend_spec r hn hf htake).mono (fun _ h => h) fun _ h => h.mono (by omega)) ?_
      intro m' a
      refine (appendAll_spec hn left m' _ a.toReady (a.isFile hf) (by omega)).mono (fun m'' a' => ?_) fun _ h => ?_
      · have := a.trans a'
        rwa [List.take_append_drop] at this
      · have := h.of_appended a
        rwa [hsplit] at this

structure Allocated (n : Nat) (m m' : Mkfs) (type : UInt16) : Prop extends Ready n m' where
  freeinode : m'.freeinode = m.freeinode + 1
  freeblock : m'.freeblock = m.freeblock
  ino : (bare n m').img.ino m.freeinode = { type := type, nlink := 1 }
  others : ∀ j, j ≠ m.freeinode → (bare n m').img.ino j = (bare n m).img.ino j ∧
    (bare n m').img.contents j = (bare n m).img.contents j

theorem contents_setIno_of_ne {g : Img} {i j : Nat} (h : j ≠ i) (d : Dinode) :
    (g.setIno i d).ino j = g.ino j ∧ (g.setIno i d).contents j = g.contents j := by
  have hino : (g.setIno i d).ino j = g.ino j := Function.update_of_ne h _ _
  refine ⟨hino, ?_⟩
  rw [Img.contents, Img.contents, hino]
  refine List.map_congr_left fun p _ => ?_
  rw [Img.byteAt, Img.byteAt, Img.ptr_setIno_of_ne (by simpa using h)]
  rfl

theorem ialloc_ok (r : Ready n m) (hn : Fits n) (hpos : 0 < m.freeinode) (hlt : m.freeinode < n) (type : UInt16) :
    ∃ m', m.ialloc type = .ok (m.freeinode, m') ∧ Allocated n m m' type := by
  have c₁ : Clean { m with freeinode := m.freeinode + 1 } := ⟨r.clean.len, r.clean.super, r.clean.lo, r.clean.hi, r.clean.zero⟩
  have hfree : ((bare n m).img.ino m.freeinode).type = 0 := by rw [r.fresh _ (Or.inr le_rfl)]
  have hadds := r.wf.newInode (d := { type := type, nlink := 1 }) hlt hfree rfl (fun _ => rfl) rfl
  rw [logWrite_inode hn hlt] at hadds
  have himg : (bare n ({ m with freeinode := m.freeinode + 1 }.putInode m.freeinode { type := type, nlink := 1 })).img =
      (bare n m).img.setIno m.freeinode { type := type, nlink := 1 } := img_putInode hn hlt _
  have hothers : ∀ j, j ≠ m.freeinode → _ := fun j hj => contents_setIno_of_ne (g := (bare n m).img) hj { type := type, nlink := 1 }
  refine ⟨_, by rw [ialloc, winode_eq c₁ hn hlt]; rfl, ⟨c₁.putInode hn hlt _, wf_disk hadds.wf [], fun j => ?_,
    fun j hj => ?_⟩, rfl, rfl, ?_, fun j hj => ?_⟩
  · rw [himg]
    by_cases hj : j = m.freeinode
    · subst hj
      have hptr := fun bn => Img.ptr_setIno_empty (g := (bare n m).img) (d := { type := type, nlink := 1 }) (fun _ => rfl)
        (inum_blockPlace m.freeinode bn)
      refine ⟨fun bn _ _ => hptr bn, fun p _ _ => ?_⟩
      rw [Img.byteAt, hptr]
      change ((bare n m).img.data 0).byte _ = 0
      rw [Fs.data_img_zero, Buffer.byte_zero]
    · have hptr := fun bn => Img.ptr_setIno_of_ne (g := (bare n m).img) (d := { type := type, nlink := 1 }) (p := blockPlace j bn)
        (by simpa using hj)
      refine ⟨fun bn hmax hbn => ?_, fun p hp hmax => ?_⟩
      · rw [hptr]
        exact (r.tight j).ptr bn hmax ((hothers j hj).1 ▸ hbn)
      · rw [Img.byteAt, hptr]
        exact (r.tight j).byte p ((hothers j hj).1 ▸ hp) hmax
  · have hj' : j = 0 ∨ m.freeinode + 1 ≤ j := hj
    rw [himg, (hothers j (by omega)).1]
    exact r.fresh j (by omega)
  · rw [himg, Img.ino_setIno_self]
  · rw [himg]
    exact hothers j hj

def entries (files : List HostFile) : List (List UInt8) :=
  dirent [46] ROOTINO :: dirent [46, 46] ROOTINO :: files.mapIdx fun k f => dirent (fsName f.name) (k + 2)

/-- The blocks that `mkfs` takes for the root directory and the files, and those before them. -/
def total (files : List HostFile) : Nat :=
  nmeta + Fs.needed (Fs.DIRENT * (files.length + 2)) + (files.map fun f => Fs.needed f.data.length).sum

/-- The image has these files, and nothing else. -/
structure Holds (n : Nat) (m : Mkfs) (files : List HostFile) : Prop extends Ready n m where
  freeinode : m.freeinode = files.length + 2
  root : ((bare n m).img.ino ROOTINO).type.toNat = T_DIR ∧ ((bare n m).img.ino ROOTINO).nlink = 1
  dir : (bare n m).img.contents ROOTINO = (entries files).flatten
  file : ∀ k f, files[k]? = some f → ((bare n m).img.ino (k + 2)).type.toNat = T_FILE ∧ ((bare n m).img.ino (k + 2)).nlink = 1 ∧
    (bare n m).img.contents (k + 2) = f.data
  used : m.freeblock ≤ total files

/-- Why `mkfs` stops on a list of files. -/
def Unfit (files : List HostFile) : Prop :=
  (∃ f ∈ files, SLASH ∈ f.name ∨ MAXFILE * BSIZE < f.data.length) ∨ MAXFILE * BSIZE < Fs.DIRENT * (files.length + 2) ∨
    FSSIZE < total files

theorem Unfit.append {files : List HostFile} (h : Unfit files) (rest : List HostFile) : Unfit (files ++ rest) := by
  have hlen : Fs.DIRENT * (files.length + 2) ≤ Fs.DIRENT * ((files ++ rest).length + 2) := by
    rw [List.length_append]
    exact Nat.mul_le_mul_left _ (by omega)
  rcases h with ⟨f, hf, h⟩ | h | h
  · exact Or.inl ⟨f, List.mem_append_left _ hf, h⟩
  · exact Or.inr (Or.inl (lt_of_lt_of_le h hlen))
  · refine Or.inr (Or.inr (lt_of_lt_of_le h ?_))
    have := Fs.needed_mono hlen
    unfold total
    rw [List.map_append, List.sum_append]
    omega

theorem total_concat (files : List HostFile) (f : HostFile) : total (files ++ [f]) + Fs.needed (Fs.DIRENT * (files.length + 2)) =
    total files + Fs.needed (Fs.DIRENT * (files.length + 3)) + Fs.needed f.data.length := by
  unfold total
  rw [List.map_append, List.sum_append, List.length_append]
  simp only [List.map_cons, List.map_nil, List.sum_singleton, List.length_singleton]
  rw [show files.length + 1 + 2 = files.length + 3 from rfl]
  omega

theorem length_dirent (name : List UInt8) (inum : Nat) : (dirent name inum).length = Fs.DIRENT := Fs.length_encodeDirent _ _

theorem entries_concat (files : List HostFile) (f : HostFile) :
    entries (files ++ [f]) = entries files ++ [dirent (fsName f.name) (files.length + 2)] := by
  simp [entries, List.mapIdx_append]

theorem length_of_mem_entries {files : List HostFile} {e : List UInt8} (he : e ∈ entries files) : e.length = Fs.DIRENT := by
  unfold entries at he
  simp only [List.mem_cons, List.mem_mapIdx] at he
  rcases he with rfl | rfl | ⟨k, hk, rfl⟩ <;> exact length_dirent _ _

theorem length_flatten_entries (files : List HostFile) : (entries files).flatten.length = Fs.DIRENT * (files.length + 2) := by
  rw [List.length_flatten, List.map_congr_left fun e he => length_of_mem_entries he, List.map_const', List.sum_replicate,
    smul_eq_mul, Nat.mul_comm]
  unfold entries
  simp

theorem Holds.size {files : List HostFile} (h : Holds n m files) :
    ((bare n m).img.ino ROOTINO).size.toNat = Fs.DIRENT * (files.length + 2) := by
  rw [← length_contents, h.dir, length_flatten_entries]

theorem Holds.isFile {files : List HostFile} (h : Holds n m files) (hn : Fits n) : IsFile n m ROOTINO := by
  have hroot := h.root.1
  refine ⟨?_, fun hz => ?_, fun hd => ?_⟩
  · unfold Fits at hn
    simp only [IPB, BSIZE, ROOTINO] at *
    omega
  · rw [hz] at hroot
    exact absurd hroot (by decide)
  · rw [hd] at hroot
    exact absurd hroot (by decide)

theorem addFile_spec {files : List HostFile} (h : Holds n m files) (hn : Fits n) (hlt : files.length + 2 < n) (f : HostFile) :
    (m.addFile f).Spec (fun m' => Holds n m' (files ++ [f])) fun _ => Unfit (files ++ [f]) := by
  have hfree := h.freeinode
  have htotal := total_concat files f
  have hused := h.used
  have hlen : (files ++ [f]).length = files.length + 1 := by simp
  unfold addFile
  split
  · rename_i hslash
    exact Or.inl ⟨f, by simp, Or.inl hslash⟩
  · obtain ⟨m₁, hal, a₁⟩ := ialloc_ok h.toReady hn (by omega) (by omega) (.ofNat T_FILE)
    have hroot : ROOTINO ≠ m.freeinode := by
      rw [hfree]
      simp only [ROOTINO]
      omega
    have hdir₁ := a₁.others ROOTINO hroot
    have hsize₁ : ((bare n m₁).img.ino ROOTINO).size.toNat = Fs.DIRENT * (files.length + 2) := by rw [hdir₁.1, h.size]
    have hfile₁ : IsFile n m₁ ROOTINO := by
      unfold IsFile
      rw [hdir₁.1]
      exact h.isFile hn
    have hne : dirent (fsName f.name) m.freeinode ≠ [] := List.ne_nil_of_length_pos (by rw [length_dirent]; decide)
    have hlen₁ : Fs.DIRENT * (files.length + 2) + (dirent (fsName f.name) m.freeinode).length = Fs.DIRENT * (files.length + 3) := by
      rw [length_dirent]
      rfl
    rw [hal, ok_bind]
    refine Outcome.Spec.bind ((iappend_spec a₁.toReady hn hfile₁ hne).mono (fun _ h => h) fun _ hfull => ?_) ?_
    · -- The directory does not fit.
      unfold Full at hfull
      rw [hsize₁, hlen₁, a₁.freeblock] at hfull
      rcases hfull with hfull | hfull
      · exact Or.inr (Or.inl (by rw [hlen]; exact hfull))
      · exact Or.inr (Or.inr (by omega))
    · intro m₂ a₂
      have hblocks := a₂.blocks
      rw [hsize₁, hlen₁, a₁.freeblock] at hblocks
      have hino₂ : (bare n m₂).img.ino m.freeinode = { type := .ofNat T_FILE, nlink := 1 } := by
        rw [(a₂.others _ (Ne.symm hroot)).1, a₁.ino]
      have hcont₂ : (bare n m₂).img.contents m.freeinode = [] := by
        rw [Img.contents, hino₂]
        rfl
      have hfile₂ : IsFile n m₂ m.freeinode := by
        unfold IsFile
        rw [hino₂]
        exact ⟨by omega, by decide, by decide⟩
      have hsize₂ : ((bare n m₂).img.ino m.freeinode).size.toNat = 0 := by
        rw [hino₂]
        rfl
      have hzero : Fs.needed 0 = 0 := by decide
      refine (appendAll_spec hn f.data.length m₂ f.data a₂.toReady hfile₂ le_rfl).mono (fun m₃ a₃ => ?_) fun _ hfull => ?_
      · have hblocks₃ := a₃.blocks
        rw [hsize₂, hzero, Nat.zero_add] at hblocks₃
        have hino₃ : (bare n m₃).img.ino ROOTINO = (bare n m₂).img.ino ROOTINO := (a₃.others _ hroot).1
        refine ⟨a₃.toReady, ?_, ?_, ?_, fun k g hk => ?_, by omega⟩
        · rw [a₃.freeinode, a₂.freeinode, a₁.freeinode, hfree, hlen]
        · obtain ⟨size, addrs, hino⟩ := a₂.ino
          rw [hino₃, hino, hdir₁.1]
          exact h.root
        · rw [(a₃.others _ hroot).2, a₂.contents, hdir₁.2, h.dir, entries_concat, List.flatten_append, List.flatten_singleton, hfree]
        · by_cases hkl : k < files.length
          · rw [List.getElem?_append_left hkl] at hk
            have hk₁ : k + 2 ≠ m.freeinode := by omega
            have hk₂ : k + 2 ≠ ROOTINO := by
              simp only [ROOTINO]
              omega
            rw [(a₃.others _ hk₁).1, (a₂.others _ hk₂).1, (a₁.others _ hk₁).1, (a₃.others _ hk₁).2, (a₂.others _ hk₂).2,
              (a₁.others _ hk₁).2]
            exact h.file k g hk
          · rw [List.getElem?_append_right (not_lt.mp hkl), List.getElem?_singleton] at hk
            split at hk
            · rename_i hk0
              cases hk
              have hkeq : k + 2 = m.freeinode := by omega
              obtain ⟨size, addrs, hino⟩ := a₃.ino
              rw [hkeq, a₃.contents, hcont₂, hino, hino₂]
              exact ⟨rfl, rfl, rfl⟩
            · cases hk
      · unfold Full at hfull
        rw [hsize₂, hzero, Nat.zero_add] at hfull
        rcases hfull with hfull | hfull
        · exact Or.inl ⟨f, by simp, Or.inr hfull⟩
        · exact Or.inr (Or.inr (by omega))

theorem addFiles_spec (hn : Fits n) : ∀ (rest files : List HostFile) (m : Mkfs), Holds n m files →
    files.length + rest.length + 2 ≤ n →
    (m.addFiles rest).Spec (fun m' => Holds n m' (files ++ rest)) fun _ => Unfit (files ++ rest)
  | [], files, m, h, _ => by
    rw [List.append_nil]
    exact h
  | f :: rest, files, m, h, hle => by
    rw [List.length_cons] at hle
    have happend : files ++ f :: rest = files ++ [f] ++ rest := by simp
    rw [happend]
    refine Outcome.Spec.bind ((addFile_spec h hn (by omega) f).mono (fun _ h => h) fun _ hu => hu.append rest) ?_
    intro m' h'
    exact addFiles_spec hn rest (files ++ [f]) m' h' (by simp; omega)

end Mkfs
end Xv6
