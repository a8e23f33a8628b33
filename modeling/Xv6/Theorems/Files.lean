import Xv6.Theorems.FsData

/-! Files are byte sequences: on a file system in order, `writei` splices its bytes into the contents of one
    file and leaves every other alone, and `readi` returns a slice of the contents. -/

namespace Xv6
open Function (update update_eq_self update_of_ne update_self)
open Bytes Ownership

/-! ### Splicing -/

theorem map_range_splice {α : Type} {f f' src : Nat → α} {size off n : Nat} (hoff : off ≤ size)
    (hbelow : ∀ p, p < off → f' p = f p) (hnew : ∀ q, q < n → f' (off + q) = src q)
    (habove : ∀ p, off + n ≤ p → p < size → f' p = f p) :
    (List.range (max size (off + n))).map f' =
      ((List.range size).map f).take off ++ (List.range n).map src ++ ((List.range size).map f).drop (off + n) := by
  have hrange : max size (off + n) = off + n + (size - (off + n)) := by omega
  have htake : ((List.range size).map f).take off = (List.range off).map f' := by
    rw [← List.map_take, List.take_range, Nat.min_eq_left hoff]
    exact List.map_congr_left fun p hp => (hbelow p (List.mem_range.mp hp)).symm
  have hdrop : ((List.range size).map f).drop (off + n) =
      (List.range (size - (off + n))).map fun q => f' (off + n + q) := by
    apply List.ext_getElem
    · simp
    · intro q hq _
      have hq' : q < size - (off + n) := by simpa using hq
      simp only [List.getElem_drop, List.getElem_map, List.getElem_range]
      exact (habove _ (by omega) (by omega)).symm
  rw [htake, hdrop, hrange, List.range_add, List.range_add, List.map_append, List.map_append, List.map_map, List.map_map]
  congr 2
  exact List.map_congr_left fun q hq => hnew q (List.mem_range.mp hq)

theorem take_drop_map_range {α : Type} (f : Nat → α) (size off n : Nat) :
    (((List.range size).map f).drop off).take n = (List.range (min n (size - off))).map fun q => f (off + q) := by
  apply List.ext_getElem
  · simp
  · intro q hq _
    simp

namespace Fs
variable {fs fs' : Fs} {i : InodeIdx} {src : Nat → UInt8} {off n : UInt32} {devsw : DevSw}

/-- A file system in order, between two operations: every block in use has one owner, files have no holes, and
    a valid inode in the cache is the one on disk. -/
structure Wf (fs : Fs) : Prop where
  super : fs.Super
  owned : fs.img.Owned fs.sb ∅
  noHole : ∀ j, (fs.img.ino j).type ≠ 0 → (fs.img.ino j).type.toNat ≠ T_DEV → fs.img.NoHole j
  slot : ∀ i, 0 < (fs.inode i).ref → (fs.inode i).dev = ROOTDEV ∧ (fs.inode i).inum < fs.sb.ninodes
  synced : ∀ i, 0 < (fs.inode i).ref → (fs.inode i).valid = true →
    fs.img.ino (fs.inode i).inum = (fs.inode i).toDinode ∧ (fs.inode i).type ≠ 0
  uniq : ∀ i j, 0 < (fs.inode i).ref → 0 < (fs.inode j).ref → (fs.inode i).inum = (fs.inode j).inum → i = j

theorem Wf.imgAt_eq (wf : fs.Wf) (hl : fs.Locked i) : fs.imgAt i = fs.img := by
  have hsync := (wf.synced i hl.1 hl.2.2).1
  rw [imgAt, Img.setIno, ← hsync, update_eq_self]

theorem Wf.working (wf : fs.Wf) (hl : fs.Locked i) : fs.Working i where
  super := wf.super
  dev := (wf.slot i hl.1).1
  inum := (wf.slot i hl.1).2
  type := (wf.synced i hl.1 hl.2.2).2
  owned := by
    rw [wf.imgAt_eq hl]
    exact wf.owned

theorem Wf.noHole_of_locked (wf : fs.Wf) (hl : fs.Locked i) (htype : (fs.inode i).type.toNat ≠ T_DEV) :
    fs.img.NoHole (fs.inode i).inum := by
  obtain ⟨hsync, hne⟩ := wf.synced i hl.1 hl.2.2
  exact wf.noHole _ (by rw [hsync]; exact hne) (by rw [hsync]; exact htype)

theorem Wf.size_le (wf : fs.Wf) (hl : fs.Locked i) (htype : (fs.inode i).type.toNat ≠ T_DEV) :
    (fs.inode i).size.toNat ≤ MAXFILE * BSIZE := by
  have := (wf.noHole_of_locked hl htype).size_le
  rwa [(wf.synced i hl.1 hl.2.2).1] at this

theorem Wf.alloc_old (wf : fs.Wf) (hl : fs.Locked i) (htype : (fs.inode i).type.toNat ≠ T_DEV) {bn : Nat}
    (hbn : bn * BSIZE < (fs.inode i).size.toNat) : (fs.imgAt i).ptr (blockPlace (fs.inode i).inum bn) ≠ 0 := by
  rw [wf.imgAt_eq hl]
  exact (wf.noHole_of_locked hl htype).alloc bn (by rw [(wf.synced i hl.1 hl.2.2).1]; exact hbn)

theorem Wf.replace {m : Nat} (wf : fs.Wf) (super : fs'.Super) (hsb : fs'.sb = fs.sb)
    (slots : ∀ j, fs'.inode j = fs.inode j ∨ 0 < (fs.inode j).ref ∧ (fs.inode j).inum = m ∧ (fs'.inode j).inum = m ∧
      (fs'.inode j).dev = (fs.inode j).dev)
    (owned : fs'.img.Owned fs'.sb ∅) (others : ∀ j, j ≠ m → fs'.img.ino j = fs.img.ino j)
    (ptrs : ∀ p : Place, p.inum ≠ m → fs'.img.ptr p = fs.img.ptr p)
    (noHole : (fs'.img.ino m).type ≠ 0 → (fs'.img.ino m).type.toNat ≠ T_DEV → fs'.img.NoHole m)
    (synced : ∀ j, 0 < (fs'.inode j).ref → (fs'.inode j).inum = m → (fs'.inode j).valid = true →
      fs'.img.ino m = (fs'.inode j).toDinode ∧ (fs'.inode j).type ≠ 0) : fs'.Wf := by
  -- The slots in use are the same ones for the same inodes.
  have hkeys : ∀ j, 0 < (fs'.inode j).ref → 0 < (fs.inode j).ref ∧ (fs'.inode j).inum = (fs.inode j).inum ∧
      (fs'.inode j).dev = (fs.inode j).dev := fun j hj => by
    rcases slots j with heq | ⟨hpos, hm, hm', hdev⟩
    · rw [heq] at hj ⊢
      exact ⟨hj, rfl, rfl⟩
    · exact ⟨hpos, hm'.trans hm.symm, hdev⟩
  refine ⟨super, owned, fun j hj hdev => ?_, fun j hj => ?_, fun j hj hv => ?_, fun j k hj hk heq => ?_⟩
  · by_cases hjm : j = m
    · subst hjm
      exact noHole hj hdev
    · rw [others j hjm] at hj hdev
      obtain ⟨hle, halloc⟩ := wf.noHole j hj hdev
      refine ⟨by rw [others j hjm]; exact hle, fun bn hbn => ?_⟩
      rw [others j hjm] at hbn
      rw [ptrs _ (by simpa using hjm)]
      exact halloc bn hbn
  · obtain ⟨hpos, hinum, hdev⟩ := hkeys j hj
    rw [hinum, hdev, hsb]
    exact wf.slot j hpos
  · by_cases hjm : (fs'.inode j).inum = m
    · rw [hjm]
      exact synced j hj hjm hv
    · rcases slots j with heq | ⟨-, -, hm', -⟩
      · rw [others _ hjm]
        rw [heq] at hj hv ⊢
        exact wf.synced j hj hv
      · exact absurd hm' hjm
  · obtain ⟨hjpos, hjinum, -⟩ := hkeys j hj
    obtain ⟨hkpos, hkinum, -⟩ := hkeys k hk
    exact wf.uniq j k hjpos hkpos (by rw [← hjinum, ← hkinum, heq])

theorem Wf.setInode (wf : fs.Wf) {ip : Inode} (slot : 0 < ip.ref → ip.dev = ROOTDEV ∧ ip.inum < fs.sb.ninodes)
    (synced : 0 < ip.ref → ip.valid = true → fs.img.ino ip.inum = ip.toDinode ∧ ip.type ≠ 0)
    (uniq : 0 < ip.ref → ∀ j, j ≠ i → 0 < (fs.inode j).ref → (fs.inode j).inum ≠ ip.inum) : (fs.setInode i ip).Wf := by
  have hself : (fs.setInode i ip).inode i = ip := update_self ..
  have hother : ∀ j, j ≠ i → (fs.setInode i ip).inode j = fs.inode j := fun j hj => update_of_ne hj _ _
  refine ⟨⟨wf.super.ok, wf.super.block, wf.super.disk⟩, wf.owned, wf.noHole, fun j hj => ?_, fun j hj hv => ?_,
    fun j k hj hk heq => ?_⟩
  · by_cases hji : j = i
    · subst hji
      rw [hself] at hj ⊢
      exact slot hj
    · rw [hother j hji] at hj ⊢
      exact wf.slot j hj
  · by_cases hji : j = i
    · subst hji
      rw [hself] at hj hv ⊢
      exact synced hj hv
    · rw [hother j hji] at hj hv ⊢
      exact wf.synced j hj hv
  · by_cases hji : j = i <;> by_cases hki : k = i
    · rw [hji, hki]
    · subst hji
      rw [hself] at hj heq
      rw [hother k hki] at hk heq
      exact absurd heq.symm (uniq hj k hki hk)
    · subst hki
      rw [hself] at hk heq
      rw [hother j hji] at hj heq
      exact absurd heq (uniq hk j hji hj)
    · rw [hother j hji] at hj heq
      rw [hother k hki] at hk heq
      exact wf.uniq j k hj hk heq

theorem Wf.setSlot (wf : fs.Wf) (hpos : 0 < (fs.inode i).ref) {ip : Inode} (hdev : ip.dev = (fs.inode i).dev)
    (hinum : ip.inum = (fs.inode i).inum)
    (synced : ip.valid = true → fs.img.ino ip.inum = ip.toDinode ∧ ip.type ≠ 0) : (fs.setInode i ip).Wf := by
  refine wf.setInode (fun _ => ?_) (fun _ => synced) fun _ j hji hj heq => ?_
  · rw [hdev, hinum]
    exact wf.slot i hpos
  · exact hji (wf.uniq j i hj hpos (heq.trans hinum))

/-- The file system is in order again, and pointers have only been added. -/
structure Adds (fs fs' : Fs) : Prop where
  wf : fs'.Wf
  sb : fs'.sb = fs.sb
  kept : ∀ p, fs.img.ptr p ≠ 0 → fs'.img.ptr p = fs.img.ptr p

theorem Adds.refl (wf : fs.Wf) : Adds fs fs := ⟨wf, rfl, fun _ _ => rfl⟩

theorem Adds.trans {fs'' : Fs} (h : Adds fs fs') (h' : Adds fs' fs'') : Adds fs fs'' where
  wf := h'.wf
  sb := h'.sb.trans h.sb
  kept := fun p hp => (h'.kept p (by rw [h.kept p hp]; exact hp)).trans (h.kept p hp)

/-! ### Bounds -/

/-- The bounds that `writei` checks: it does not start behind the end of the file, `off + n` does not wrap, and
    the file does not get too long. -/
def Rejects (size off n : Nat) : Prop := size < off ∨ 2 ^ 32 ≤ off + n ∨ MAXFILE * BSIZE < off + n

instance (size off n : Nat) : Decidable (Rejects size off n) := inferInstanceAs (Decidable (_ ∨ _))

theorem add_lt_self_iff : off + n < off ↔ 2 ^ 32 ≤ off.toNat + n.toNat := by
  have h1 := off.toNat_lt
  have h2 := n.toNat_lt
  rw [UInt32.lt_iff_toNat_lt, UInt32.toNat_add]
  omega

theorem writei_reject (htype : (fs.inode i).type.toNat ≠ T_DEV)
    (h : Rejects (fs.inode i).size.toNat off.toNat n.toNat) : fs.writei devsw i src off n = .ok (-1, fs) := by
  rw [writei, if_neg htype]
  by_cases hfirst : (fs.inode i).size < off ∨ off + n < off
  · rw [if_pos hfirst]
  · rw [if_neg hfirst, if_pos]
    rw [not_or, add_lt_self_iff, UInt32.lt_iff_toNat_lt] at hfirst
    have hmax : MAXFILE * BSIZE < off.toNat + n.toNat := by
      rcases h with h | h | h
      · exact absurd h hfirst.1
      · exact absurd h hfirst.2
      · exact h
    rw [UInt32.lt_iff_toNat_lt, UInt32.toNat_add, Nat.mod_eq_of_lt (by omega)]
    exact hmax

theorem writei_of_accept {P : Fs → Prop} {bad : Option String → Prop} (hsame : P fs)
    (hacc : (fs.inode i).type.toNat ≠ T_DEV → ¬Rejects (fs.inode i).size.toNat off.toNat n.toNat →
      (fs.writei devsw i src off n).Spec (fun r => P r.2) bad) : (fs.writei devsw i src off n).Spec (fun r => P r.2) bad := by
  by_cases htype : (fs.inode i).type.toNat = T_DEV
  · rw [writei, if_pos htype]
    split
    · exact hsame
    · split <;> exact hsame
  · by_cases hrej : Rejects (fs.inode i).size.toNat off.toNat n.toNat
    · rw [writei_reject htype hrej]
      exact hsame
    · exact hacc htype hrej

theorem writei_accept (htype : (fs.inode i).type.toNat ≠ T_DEV)
    (h : ¬Rejects (fs.inode i).size.toNat off.toNat n.toNat) :
    fs.writei devsw i src off n = (do
      let (off, fs) ← fs.writeiLoop i src n.toNat n.toNat off.toNat 0
      if 0 < n ∧ (fs.inode i).size.toNat < off then
        let fs ← (fs.setInode i { fs.inode i with size := .ofNat off }).iupdate i
        pure ((n.toNat : Int), fs)
      else pure ((n.toNat : Int), fs)) := by
  simp only [Rejects, not_or, not_lt, not_le] at h
  obtain ⟨hsize, hwrap, hmax⟩ := h
  have hfirst : ¬((fs.inode i).size < off ∨ off + n < off) := by
    rw [not_or, add_lt_self_iff, UInt32.lt_iff_toNat_lt]
    omega
  have hsecond : ¬UInt32.ofNat (MAXFILE * BSIZE) < off + n := by
    rw [UInt32.lt_iff_toNat_lt, UInt32.toNat_add, Nat.mod_eq_of_lt hwrap]
    exact Nat.not_lt.mpr hmax
  rw [writei, if_neg htype, if_neg hfirst, if_neg hsecond]

/-! ### A write -/

def blocks (k : Nat) : Nat := (k + BSIZE - 1) / BSIZE

theorem lt_blocks {k bn : Nat} : bn < blocks k ↔ bn * BSIZE < k := by
  simp only [blocks, BSIZE]
  omega

theorem le_blocks (k : Nat) : k ≤ blocks k * BSIZE := by
  simp only [blocks, BSIZE]
  omega

theorem blocks_le {k : Nat} (h : k ≤ MAXFILE * BSIZE) : blocks k ≤ MAXFILE := by
  have hmax : MAXFILE = 140 := rfl
  rw [hmax] at h ⊢
  simp only [blocks, BSIZE] at *
  omega

structure Written (fs fs' : Fs) (i : InodeIdx) (src : Nat → UInt8) (off n : Nat) : Prop extends Adds fs fs' where
  slots : ∀ j, j ≠ i → fs'.inode j = fs.inode j
  slot : ∃ size addrs, fs'.inode i = { fs.inode i with size := size, addrs := addrs }
  size : (fs'.img.ino (fs.inode i).inum).size.toNat = max (fs.inode i).size.toNat (off + n)
  contents : fs'.img.contents (fs.inode i).inum = (fs.img.contents (fs.inode i).inum).take off ++
    (List.range n).map src ++ (fs.img.contents (fs.inode i).inum).drop (off + n)
  others : ∀ j, j ≠ (fs.inode i).inum → fs'.img.ino j = fs.img.ino j ∧ fs'.img.contents j = fs.img.contents j
  free : fs'.free + fs.img.lacking (fs.inode i).inum (blocks (off + n)) = fs.free

/-- A slot whose inode is on disk as it is in memory, after the loop of `writei` and with the new size. -/
structure Stored (fs₁ fs' : Fs) (i : InodeIdx) (size : UInt32) : Prop where
  super : fs'.Super
  sb : fs'.sb = fs₁.sb
  inode : fs'.inode = update fs₁.inode i { fs₁.inode i with size := size }
  img : fs'.img = (fs₁.imgAt i).setIno (fs₁.inode i).inum { (fs₁.inode i).toDinode with size := size }

section Stored
variable {fs₁ : Fs} {o len : Nat} {size : UInt32}

section
variable (st : Stored fs₁ fs' i size)
include st

theorem Stored.ptr (p : Place) : fs'.img.ptr p = (fs₁.imgAt i).ptr p := by
  rw [st.img]
  exact Img.ptr_setIno_same (by simp [imgAt]) (by simp [imgAt]) p

theorem Stored.data : fs'.img.data = (fs₁.imgAt i).data := by
  rw [st.img]
  rfl

theorem Stored.byteAt (j p : Nat) : fs'.img.byteAt j p = (fs₁.imgAt i).byteAt j p := by
  rw [Img.byteAt, Img.byteAt, st.ptr, st.data]

theorem Stored.ino_self :
    fs'.img.ino (fs₁.inode i).inum = { (fs₁.inode i).toDinode with size := size } := by
  rw [st.img, Img.ino_setIno_self]

theorem Stored.ino_of_ne {j : Nat} (hj : j ≠ (fs₁.inode i).inum) :
    fs'.img.ino j = fs₁.img.ino j := by
  rw [st.img, imgAt, Img.setIno_setIno]
  exact update_of_ne hj _ _

end

theorem data_img_zero (fs : Fs) : fs.img.data 0 = .zero := by
  show (if fs.sb.nmeta ≤ 0 then fs.blk 0 else .zero) = .zero
  rw [if_neg (Nat.not_le.mpr fs.sb.nmeta_pos)]

theorem Wrote.byteAt_other (wf : fs.Wf) (hl : fs.Locked i) (h : Wrote fs fs₁ i o len src) {j : Nat}
    (hj : j ≠ (fs.inode i).inum) (p : Nat) : (fs₁.imgAt i).byteAt j p = fs.img.byteAt j p := by
  have heq := wf.imgAt_eq hl
  have hptr := h.others (blockPlace j (p / BSIZE)) (by simpa using hj)
  rw [Img.byteAt, Img.byteAt, hptr, heq]
  by_cases hz : fs.img.ptr (blockPlace j (p / BSIZE)) = 0
  · rw [hz]
    show (fs₁.img.data 0).byte _ = (fs.img.data 0).byte _
    rw [data_img_zero, data_img_zero]
  · have := h.otherData j (p / BSIZE) hj (by rw [heq]; exact hz)
    rw [heq] at this
    rw [this]

theorem Wrote.alloc_all (wf : fs.Wf) (hl : fs.Locked i) (htype : (fs.inode i).type.toNat ≠ T_DEV)
    (hw : Wrote fs fs₁ i o len src) (hoff : o ≤ (fs.inode i).size.toNat) {bn : Nat}
    (hbn : bn * BSIZE < max (fs.inode i).size.toNat (o + len)) :
    (fs₁.imgAt i).ptr (blockPlace (fs.inode i).inum bn) ≠ 0 := by
  by_cases hlt : bn * BSIZE < (fs.inode i).size.toNat
  · have hold := wf.alloc_old hl htype hlt
    rw [hw.kept _ hold]
    exact hold
  · have hdiv : bn * BSIZE / BSIZE = bn := Nat.mul_div_cancel bn (by decide)
    have := hw.alloc (bn * BSIZE) (by omega) (by omega)
    rwa [hdiv] at this

theorem Stored.wf (wf : fs.Wf) (hl : fs.Locked i) (htype : (fs.inode i).type.toNat ≠ T_DEV)
    (hoff : o ≤ (fs.inode i).size.toNat) (hmax : o + len ≤ MAXFILE * BSIZE) (hw : Wrote fs fs₁ i o len src)
    (st : Stored fs₁ fs' i size) (hsize : size.toNat = max (fs.inode i).size.toNat (o + len)) : fs'.Wf := by
  have hinum := hw.inum
  have hself : fs'.img.ino (fs.inode i).inum = { (fs₁.inode i).toDinode with size := size } := hinum ▸ st.ino_self
  have hslot : fs'.inode i = { fs₁.inode i with size := size } := by rw [st.inode, update_self]
  refine wf.replace (m := (fs.inode i).inum) st.super (st.sb.trans hw.sb) (fun j => ?_) ?_ (fun j hj => ?_) (fun p hp => ?_)
    (fun _ _ => ⟨?_, fun bn hbn => ?_⟩) fun j hj hjm _ => ?_
  · by_cases hj : j = i
    · subst hj
      rw [hslot, hw.slot]
      exact Or.inr ⟨hl.1, rfl, rfl, rfl⟩
    · rw [st.inode, update_of_ne hj, hw.slots j hj]
      exact Or.inl rfl
  · rw [st.sb]
    have := hw.work.owned
    unfold Img.Owned at this ⊢
    rw [funext st.ptr, st.img]
    exact this
  · rw [st.ino_of_ne (by rw [hinum]; exact hj), hw.ino]
  · rw [st.ptr, hw.others _ hp, wf.imgAt_eq hl]
  · rw [hself, hsize]
    exact max_le (wf.size_le hl htype) hmax
  · rw [hself, hsize] at hbn
    rw [st.ptr]
    exact hw.alloc_all wf hl htype hoff hbn
  · -- Only slot `i` holds the inode.
    obtain rfl : j = i := by
      by_contra hji
      rw [st.inode, update_of_ne hji, hw.slots j hji] at hj hjm
      exact hji (wf.uniq j i hj hl.1 hjm)
    rw [hself, hslot]
    exact ⟨rfl, hw.work.type⟩

theorem Wrote.lacking_zero (wf : fs.Wf) (hl : fs.Locked i) (htype : (fs.inode i).type.toNat ≠ T_DEV)
    (hw : Wrote fs fs₁ i o len src) (hoff : o ≤ (fs.inode i).size.toNat) :
    (fs₁.imgAt i).lacking (fs.inode i).inum (blocks (o + len)) = 0 := by
  have hall : ∀ bn, bn < blocks (o + len) → (fs₁.imgAt i).ptr (blockPlace (fs.inode i).inum bn) ≠ 0 := fun bn hbn =>
    hw.alloc_all wf hl htype hoff (lt_of_lt_of_le (lt_blocks.mp hbn) (le_max_right _ _))
  rw [Img.lacking, Finset.sum_eq_zero fun bn hbn => Img.missing_of_ne (hall bn (Finset.mem_range.mp hbn)), Nat.zero_add]
  split
  · rename_i hlt
    have := hall NDIRECT hlt
    rw [blockPlace_indirect (Nat.lt_irrefl NDIRECT)] at this
    exact Img.missing_of_ne (p := .addr _ INDIRECT) fun hz => this (Img.ptr_entry_zero hz)
  · rfl

theorem Stored.written (wf : fs.Wf) (hl : fs.Locked i) (htype : (fs.inode i).type.toNat ≠ T_DEV)
    (h : ¬Rejects (fs.inode i).size.toNat o len) (hw : Wrote fs fs₁ i o len src) (st : Stored fs₁ fs' i size)
    (hsize : size.toNat = max (fs.inode i).size.toNat (o + len))
    (hfree : fs₁.free + (fs.imgAt i).lacking (fs.inode i).inum (blocks (o + len)) =
      fs.free + (fs₁.imgAt i).lacking (fs.inode i).inum (blocks (o + len))) :
    Written fs fs' i src o len := by
  have heq := wf.imgAt_eq hl
  have hinum := hw.inum
  have hsync := (wf.synced i hl.1 hl.2.2).1
  simp only [Rejects, not_or, not_lt, not_le] at h
  obtain ⟨hoff, -, hmax⟩ := h
  have hself : fs'.img.ino (fs.inode i).inum = { (fs₁.inode i).toDinode with size := size } := hinum ▸ st.ino_self
  have hother : ∀ j, j ≠ (fs.inode i).inum → fs'.img.ino j = fs.img.ino j := fun j hj => by
    rw [st.ino_of_ne (by rw [hinum]; exact hj), hw.ino]
  have hle := wf.size_le hl htype
  refine ⟨⟨st.wf wf hl htype hoff hmax hw hsize, st.sb.trans hw.sb, fun p hp => ?_⟩, fun j hj => ?_,
    ⟨size, (fs₁.inode i).addrs, ?_⟩, ?_, ?_, fun j hj => ⟨hother j hj, ?_⟩, ?_⟩
  · rw [← heq] at hp ⊢
    rw [st.ptr, hw.kept p hp]
  · rw [st.inode, update_of_ne hj, hw.slots j hj]
  · rw [st.inode, update_self, hw.slot]
  · rw [hself, hsize]
  · have hkept : ∀ p, p < o ∨ o + len ≤ p → p < (fs.inode i).size.toNat →
        fs'.img.byteAt (fs.inode i).inum p = fs.img.byteAt (fs.inode i).inum p := fun p hp hlt => by
      have hbn : p / BSIZE * BSIZE < (fs.inode i).size.toNat := lt_of_le_of_lt (Nat.div_mul_le_self p BSIZE) hlt
      rw [st.byteAt, ← heq]
      exact hw.keptBytes p hp (by omega) (wf.alloc_old hl htype hbn)
    rw [Img.contents, Img.contents, hself, hsync, hsize]
    refine map_range_splice hoff (fun p hp => hkept p (Or.inl hp) (by omega)) (fun q hq => ?_)
      fun p hp hlt => hkept p (Or.inr hp) hlt
    rw [st.byteAt, hw.bytes (o + q) (by omega) (by omega), Nat.add_sub_cancel_left]
  · rw [Img.contents, Img.contents, hother j hj]
    exact List.map_congr_left fun p _ => by rw [st.byteAt, hw.byteAt_other wf hl hj]
  · rw [hw.lacking_zero wf hl htype hoff, Nat.add_zero, heq] at hfree
    have : fs'.free = fs₁.free := by
      rw [free, free, st.sb, st.img]
      rfl
    rw [this, hfree]

theorem Wrote.stored_same (wf : fs.Wf) (hl : fs.Locked i) (hw : Wrote fs fs₁ i o len src) (hinode : fs₁.inode = fs.inode) :
    Stored fs₁ fs₁ i (fs₁.inode i).size where
  super := hw.work.super
  sb := rfl
  inode := (update_eq_self i fs₁.inode).symm
  img := by
    have hsync := (wf.synced i hl.1 hl.2.2).1
    rw [imgAt, Img.setIno_setIno]
    show fs₁.img = fs₁.img.setIno (fs₁.inode i).inum (fs₁.inode i).toDinode
    rw [Img.setIno, hinode, ← hsync, ← hw.ino, update_eq_self]

theorem Wrote.stored_update (hw : Wrote fs fs₁ i o len src) (size : UInt32) :
    ∃ fs', (fs₁.setInode i { fs₁.inode i with size := size }).iupdate i = .ok fs' ∧ Stored fs₁ fs' i size := by
  have hself : (fs₁.setInode i { fs₁.inode i with size := size }).inode i = { fs₁.inode i with size := size } := by
    simp [setInode]
  have hsuper : (fs₁.setInode i { fs₁.inode i with size := size }).Super :=
    ⟨hw.work.super.ok, hw.work.super.block, hw.work.super.disk⟩
  obtain ⟨fs', hup, hs', himg, hmem⟩ := iupdate_ok (i := i) hsuper (by rw [hself]; exact hw.work.dev)
    (by rw [hself]; exact hw.work.inum)
  refine ⟨fs', hup, hs', hmem.sb, hmem.inode, ?_⟩
  rw [himg, hself, imgAt, Img.setIno_setIno]
  rfl

end Stored

theorem writei_stored (wf : fs.Wf) (hl : fs.Locked i) (htype : (fs.inode i).type.toNat ≠ T_DEV)
    (h : ¬Rejects (fs.inode i).size.toNat off.toNat n.toNat) :
    (fs.writei devsw i src off n).Spec
      (fun r => r.1 = n.toNat ∧ ∃ fs₁ size, fs.writeiLoop i src n.toNat n.toNat off.toNat 0 = .ok (off.toNat + n.toNat, fs₁) ∧
        Wrote fs fs₁ i off.toNat n.toNat src ∧ Stored fs₁ r.2 i size ∧
        size.toNat = max (fs.inode i).size.toNat (off.toNat + n.toNat) ∧
        fs₁.free + (fs.imgAt i).lacking (fs.inode i).inum (blocks (off.toNat + n.toNat)) =
          fs.free + (fs₁.imgAt i).lacking (fs.inode i).inum (blocks (off.toNat + n.toNat)))
      fun o => o = some "balloc: out of blocks" ∧
        fs.free < fs.img.lacking (fs.inode i).inum (blocks (off.toNat + n.toNat)) := by
  have hbound := h
  simp only [Rejects, not_or, not_lt, not_le] at hbound
  obtain ⟨hoff, -, hmax⟩ := hbound
  have hloop := @writeiLoop_spec i (blocks (off.toNat + n.toNat)) n.toNat src (blocks_le hmax) n.toNat fs off.toNat 0
    (wf.working hl) (Nat.sub_le _ _) (Nat.zero_le _) (le_blocks _)
  rw [writei_accept htype h, ← wf.imgAt_eq hl]
  cases hrun : fs.writeiLoop i src n.toNat n.toNat off.toNat 0 with
  | sleep | panic msg =>
    rw [hrun] at hloop
    exact hloop
  | ok r =>
    obtain ⟨off', fs₁⟩ := r
    rw [hrun] at hloop
    obtain ⟨hoff', hw, hfree⟩ := hloop
    simp only [Nat.sub_zero, Nat.zero_add] at hoff' hw hfree
    subst hoff'
    have hsz : (fs₁.inode i).size = (fs.inode i).size := by rw [hw.slot]
    rw [Outcome.ok_bind]
    dsimp only
    split
    · rename_i hgrow
      obtain ⟨fs', hup, st⟩ := hw.stored_update (.ofNat (off.toNat + n.toNat))
      rw [hup]
      have hnat : (UInt32.ofNat (off.toNat + n.toNat)).toNat = off.toNat + n.toNat :=
        UInt32.toNat_ofNat_of_lt' (lt_of_le_of_lt hmax (by decide))
      rw [hsz] at hgrow
      exact ⟨rfl, fs₁, _, rfl, hw, st, by omega, hfree⟩
    · rename_i hgrow
      rw [hsz] at hgrow
      have hsame : fs₁.inode = fs.inode := hw.inPlace fun p hp hp' => by
        have hpos : 0 < n := UInt32.lt_iff_toNat_lt.mpr (by simp only [UInt32.toNat_zero]; omega)
        have hlt : p < (fs.inode i).size.toNat := by
          by_contra hge
          exact hgrow ⟨hpos, by omega⟩
        exact wf.alloc_old hl htype (lt_of_le_of_lt (Nat.div_mul_le_self p BSIZE) hlt)
      refine ⟨rfl, fs₁, _, rfl, hw, hw.stored_same wf hl hsame, ?_, hfree⟩
      rw [hsz]
      by_cases hpos : 0 < n
      · have : ¬(fs.inode i).size.toNat < off.toNat + n.toNat := fun hlt => hgrow ⟨hpos, hlt⟩
        omega
      · have hzero : n.toNat = 0 := by
          rw [UInt32.lt_iff_toNat_lt, UInt32.toNat_zero] at hpos
          omega
        omega

/-- An accepted `writei` returns `n` and has spliced the bytes into the file; it fails only for want of blocks. -/
theorem writei_spec (wf : fs.Wf) (hl : fs.Locked i) (htype : (fs.inode i).type.toNat ≠ T_DEV)
    (h : ¬Rejects (fs.inode i).size.toNat off.toNat n.toNat) :
    (fs.writei devsw i src off n).Spec (fun r => r.1 = n.toNat ∧ Written fs r.2 i src off.toNat n.toNat)
      fun o => o = some "balloc: out of blocks" ∧
        fs.free < fs.img.lacking (fs.inode i).inum (blocks (off.toNat + n.toNat)) := by
  refine (writei_stored wf hl htype h).mono (fun r hr => ?_) fun o ho => ho
  obtain ⟨hret, fs₁, size, -, hw, st, hsize, hfree⟩ := hr
  exact ⟨hret, st.written wf hl htype h hw hsize hfree⟩

/-! ### A read -/

theorem readi_eq (wf : fs.Wf) (hl : fs.Locked i) (htype : (fs.inode i).type.toNat ≠ T_DEV) :
    fs.readi devsw i off n =
      if (fs.inode i).size.toNat < off.toNat ∨ 2 ^ 32 ≤ off.toNat + n.toNat then .ok (-1, [], fs)
      else .ok (((min n.toNat ((fs.inode i).size.toNat - off.toNat) : Nat) : Int),
        ((fs.img.contents (fs.inode i).inum).drop off.toNat).take n.toNat, fs) := by
  have hiff : ((fs.inode i).size < off ∨ off + n < off) ↔
      ((fs.inode i).size.toNat < off.toNat ∨ 2 ^ 32 ≤ off.toNat + n.toNat) := by
    rw [add_lt_self_iff, UInt32.lt_iff_toNat_lt]
  rw [readi, if_neg htype]
  by_cases h : (fs.inode i).size.toNat < off.toNat ∨ 2 ^ 32 ≤ off.toNat + n.toNat
  · rw [if_pos h, if_pos (hiff.mpr h)]
  · rw [if_neg h, if_neg (mt hiff.mp h)]
    simp only [not_or, not_lt, not_le] at h
    obtain ⟨hoff, hwrap⟩ := h
    have hn : (if (fs.inode i).size < off + n then (fs.inode i).size - off else n).toNat =
        min n.toNat ((fs.inode i).size.toNat - off.toNat) := by
      have hle : off ≤ (fs.inode i).size := UInt32.le_iff_toNat_le.mpr hoff
      split
      · rename_i hlt
        rw [UInt32.lt_iff_toNat_lt, UInt32.toNat_add, Nat.mod_eq_of_lt hwrap] at hlt
        rw [UInt32.toNat_sub_of_le _ _ hle]
        omega
      · rename_i hlt
        rw [UInt32.lt_iff_toNat_lt, UInt32.toNat_add, Nat.mod_eq_of_lt hwrap] at hlt
        omega
    have hloop := readiLoop_eq (wf.working hl) (wf.size_le hl htype) (fun bn hbn => wf.alloc_old hl htype hbn)
      (min n.toNat ((fs.inode i).size.toNat - off.toNat)) off.toNat 0
      (n := min n.toNat ((fs.inode i).size.toNat - off.toNat)) (by omega) (by omega)
    have hslice := take_drop_map_range (fs.img.byteAt (fs.inode i).inum) (fs.inode i).size.toNat off.toNat n.toNat
    simp only [hn, hloop, Outcome.ok_bind, Outcome.pure_eq, Nat.sub_zero, wf.imgAt_eq hl, Img.contents,
      (wf.synced i hl.1 hl.2.2).1, hslice]

end Fs
end Xv6
