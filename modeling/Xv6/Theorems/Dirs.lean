import Mathlib.Data.List.GetD
import Xv6.Lib.Table
import Xv6.Path
import Xv6.Theorems.FsRuns

/-! Directories as the kernel reads them: a sequence of entries, each an inode number and a name. -/

namespace Xv6
open Bytes

/-! ### Names -/

/-- The name in a buffer: the bytes before the first NUL, `DIRSIZ` at the most. -/
def nameOf (s : Nat → UInt8) : List UInt8 := ((List.range DIRSIZ).map s).takeWhile fun c => c ≠ 0

theorem map_range_succ {α : Type} (f : Nat → α) (n k : Nat) :
    (List.range (n + 1)).map (fun j => f (k + j)) = f k :: (List.range n).map fun j => f (k + 1 + j) := by
  rw [List.range_succ_eq_map, List.map_cons, List.map_map]
  refine congrArg₂ _ rfl (List.map_congr_left fun j _ => congrArg f ?_)
  change k + (j + 1) = k + 1 + j
  omega

theorem strncmp_eq_zero_iff (p q : Nat → UInt8) : ∀ n k : Nat, strncmp p q n k = 0 ↔
    ((List.range n).map fun j => p (k + j)).takeWhile (fun c => c ≠ 0) =
      ((List.range n).map fun j => q (k + j)).takeWhile fun c => c ≠ 0
  | 0, _ => iff_of_true rfl rfl
  | n + 1, k => by
    rw [strncmp, map_range_succ, map_range_succ, List.takeWhile_cons, List.takeWhile_cons]
    by_cases hp : p k = 0
    · rw [if_neg (fun h => h.1 hp), hp]
      by_cases hq : q k = 0
      · simp [hq]
      · have : (q k).toNat ≠ 0 := fun h => hq (UInt8.toNat_inj.mp h)
        simp [hq]
        omega
    · by_cases heq : p k = q k
      · rw [if_pos ⟨hp, heq⟩, strncmp_eq_zero_iff p q n (k + 1), ← heq]
        simp [hp]
      · have : (p k).toNat ≠ (q k).toNat := fun h => heq (UInt8.toNat_inj.mp h)
        rw [if_neg (fun h => heq h.2)]
        refine iff_of_false (by omega) fun h => ?_
        simp only [ne_eq, hp, not_false_eq_true, decide_true, if_true] at h
        split at h
        · exact heq (List.cons.inj h).1
        · cases h

theorem namecmp_eq_zero_iff {s t : Nat → UInt8} : Fs.namecmp s t = 0 ↔ nameOf s = nameOf t := by
  have h := strncmp_eq_zero_iff s t DIRSIZ 0
  simp only [Nat.zero_add] at h
  exact h

theorem takeWhile_strncpy (t : Nat → UInt8) : ∀ n k : Nat, (strncpy t n k).takeWhile (fun c => c ≠ 0) =
    ((List.range n).map fun j => t (k + j)).takeWhile fun c => c ≠ 0
  | 0, _ => rfl
  | n + 1, k => by
    rw [strncpy, map_range_succ, List.takeWhile_cons]
    by_cases h : t k = 0
    · simp [h, List.replicate_succ]
    · rw [if_neg h, List.takeWhile_cons, takeWhile_strncpy t n (k + 1)]

theorem length_strncpy (t : Nat → UInt8) : ∀ n k : Nat, (strncpy t n k).length = n
  | 0, _ => rfl
  | n + 1, k => by
    rw [strncpy]
    split
    · exact List.length_replicate
    · rw [List.length_cons, length_strncpy t n (k + 1)]

theorem nameOf_getD {name : List UInt8} (hlen : name.length ≤ DIRSIZ) (hnul : (0 : UInt8) ∉ name) :
    nameOf (fun j => name.getD j 0) = name := by
  have hsplit : (List.range DIRSIZ).map (fun j => name.getD j 0) = name ++ List.replicate (DIRSIZ - name.length) 0 := by
    refine List.ext_getElem (by simp; omega) fun j h _ => ?_
    simp only [List.getElem_map, List.getElem_range, List.getElem_append]
    split
    · rename_i hj
      simp [List.getD, hj]
    · rename_i hj
      rw [List.getElem_replicate, List.getD_eq_default _ _ (not_lt.mp hj)]
  have hall : ∀ c ∈ name, decide (c ≠ 0) = true := fun c hc => decide_eq_true fun h => hnul (h ▸ hc)
  rw [nameOf, hsplit, List.takeWhile_append_of_pos hall]
  cases DIRSIZ - name.length <;> simp [List.replicate_succ]

namespace Fs

theorem length_encodeDirent (name : Nat → UInt8) (inum : Nat) : (encodeDirent name inum).length = DIRENT := by
  rw [encodeDirent, List.length_append, length_toLe, length_strncpy]

theorem direntInum_encodeDirent (name : Nat → UInt8) (inum : Nat) : direntInum (encodeDirent name inum) = inum % 2 ^ 16 := by
  have htake : (encodeDirent name inum).take 2 = toLe 2 inum := List.take_left' (length_toLe 2 inum)
  rw [direntInum, htake, ofLe_toLe]
  rfl

theorem nameOf_encodeDirent (name : Nat → UInt8) (inum : Nat) : nameOf (direntName (encodeDirent name inum)) = nameOf name := by
  have hbytes : (List.range DIRSIZ).map (direntName (encodeDirent name inum)) = strncpy name DIRSIZ 0 := by
    refine List.ext_getElem (by simp [length_strncpy]) fun j hj hj' => ?_
    have hget : (encodeDirent name inum).getD (2 + j) 0 = (strncpy name DIRSIZ 0).getD j 0 := by
      rw [encodeDirent, List.getD_append_right _ _ _ _ (by rw [length_toLe]; omega), length_toLe, Nat.add_sub_cancel_left]
    simp only [List.getElem_map, List.getElem_range, direntName, hget]
    simp [List.getD, hj']
  have := takeWhile_strncpy name DIRSIZ 0
  simp only [Nat.zero_add] at this
  rw [nameOf, hbytes, this, nameOf]

end Fs

/-! ### Entries -/

/-- What an entry holds, unless it is free: a name, and the number of an inode. -/
def Fs.decodeDirent (de : List UInt8) : Option (List UInt8 × Nat) :=
  if Fs.direntInum de = 0 then none else some (nameOf (Fs.direntName de), Fs.direntInum de)

def Img.direntAt (g : Img) (j s : Nat) : List UInt8 := (List.range Fs.DIRENT).map fun q => g.byteAt j (Fs.DIRENT * s + q)

theorem Img.direntAt_eq {g : Img} {j s : Nat} (h : Fs.DIRENT * (s + 1) ≤ (g.ino j).size.toNat) :
    g.direntAt j s = ((g.contents j).drop (Fs.DIRENT * s)).take Fs.DIRENT := by
  have hmin : min Fs.DIRENT ((g.ino j).size.toNat - Fs.DIRENT * s) = Fs.DIRENT := by
    rw [Nat.mul_succ] at h
    omega
  rw [Img.contents, take_drop_map_range, hmin, Img.direntAt]

/-- Directory `j`, with the slots of its entries. -/
def Img.dir (g : Img) (j : Nat) : Table (List UInt8) Nat where
  size := (g.ino j).size.toNat / Fs.DIRENT
  slot := fun s => if s < (g.ino j).size.toNat / Fs.DIRENT then Fs.decodeDirent (g.direntAt j s) else none
  beyond := fun _ h => if_neg (not_lt.mpr h)

theorem Img.slot_dir {g : Img} {j s : Nat} (h : s < (g.dir j).size) : (g.dir j).slot s = Fs.decodeDirent (g.direntAt j s) :=
  if_pos h

namespace Fs
variable {fs : Fs} {dp : InodeIdx} {lim : Nat} {devsw : DevSw}

/-- The first `lim` bytes of a locked file or directory are there. -/
structure Readable (fs : Fs) (dp : InodeIdx) (lim : Nat) : Prop where
  work : fs.Working dp
  dev : (fs.inode dp).type.toNat ≠ T_DEV
  le : lim ≤ (fs.inode dp).size.toNat
  max : lim ≤ MAXFILE * BSIZE
  alloc : ∀ bn, bn * BSIZE < lim → (fs.imgAt dp).ptr (blockPlace (fs.inode dp).inum bn) ≠ 0

theorem Readable.readi (r : fs.Readable dp lim) {off n : Nat} (h : off + n ≤ lim) :
    fs.readi devsw dp (.ofNat off) (.ofNat n) =
      .ok ((n : Int), (List.range n).map (fun q => (fs.imgAt dp).byteAt (fs.inode dp).inum (off + q)), fs) := by
  have hmax : MAXFILE * BSIZE = 71680 := rfl
  have hlim := r.max
  have hle := r.le
  have hoff : (UInt32.ofNat off).toNat = off := UInt32.toNat_ofNat_of_lt' (by simp only [UInt32.size]; omega)
  have hn : (UInt32.ofNat n).toNat = n := UInt32.toNat_ofNat_of_lt' (by simp only [UInt32.size]; omega)
  have hsum : (UInt32.ofNat off + UInt32.ofNat n).toNat = off + n := by
    rw [UInt32.toNat_add, hoff, hn, Nat.mod_eq_of_lt (by omega)]
  have hin : ¬((fs.inode dp).size < .ofNat off ∨ UInt32.ofNat off + .ofNat n < .ofNat off) := by
    rw [not_or, UInt32.lt_iff_toNat_lt, UInt32.lt_iff_toNat_lt, hsum, hoff]
    omega
  have hall : ¬(fs.inode dp).size < UInt32.ofNat off + .ofNat n := by
    rw [UInt32.lt_iff_toNat_lt, hsum]
    omega
  rw [Fs.readi, if_neg r.dev, if_neg hin]
  dsimp only
  rw [if_neg hall, hoff, hn, readiLoop_eq r.work r.max r.alloc n off 0 (by omega) (by omega)]
  rfl

theorem Readable.entry (r : fs.Readable dp lim) {s : Nat} (h : DIRENT * (s + 1) ≤ lim) :
    fs.readi devsw dp (.ofNat (DIRENT * s)) (.ofNat DIRENT) =
      .ok ((DIRENT : Int), (fs.imgAt dp).direntAt (fs.inode dp).inum s, fs) :=
  r.readi h

def found (fs : Fs) (dp : InodeIdx) (s inum : Nat) : Outcome (Option (InodeIdx × Nat) × Fs) := do
  let (i, fs') ← fs.iget (fs.inode dp).dev inum
  pure (some (i, DIRENT * s), fs')

theorem Readable.dirlookupFrom (r : fs.Readable dp lim) {s : Nat} (h : DIRENT * (s + 1) ≤ lim) {name : Nat → UInt8}
    (left : Nat) : fs.dirlookupFrom devsw dp name (left + 1) (DIRENT * s) =
      if (decodeDirent ((fs.imgAt dp).direntAt (fs.inode dp).inum s)).map Prod.fst = some (nameOf name) then
        fs.found dp s (direntInum ((fs.imgAt dp).direntAt (fs.inode dp).inum s))
      else fs.dirlookupFrom devsw dp name left (DIRENT * (s + 1)) := by
  have hlt : DIRENT * s < (fs.inode dp).size.toNat := by
    have := r.le
    simp only [DIRENT, DIRSIZ] at *
    omega
  have hiff : (direntInum ((fs.imgAt dp).direntAt (fs.inode dp).inum s) ≠ 0 ∧
      namecmp name (direntName ((fs.imgAt dp).direntAt (fs.inode dp).inum s)) = 0) ↔
      (decodeDirent ((fs.imgAt dp).direntAt (fs.inode dp).inum s)).map Prod.fst = some (nameOf name) := by
    rw [decodeDirent, namecmp_eq_zero_iff]
    split <;> simp_all [eq_comm]
  rw [Fs.dirlookupFrom, if_pos hlt, r.entry h, Outcome.ok_bind]
  dsimp only
  rw [if_neg (fun hne => hne rfl)]
  exact if_congr hiff rfl rfl

theorem Readable.dirlookup_hit (r : fs.Readable dp lim) (htype : (fs.inode dp).type.toNat = T_DIR) {s : Nat}
    (hs : DIRENT * (s + 1) ≤ lim) {name : Nat → UInt8}
    (hbefore : ∀ s' < s, (decodeDirent ((fs.imgAt dp).direntAt (fs.inode dp).inum s')).map Prod.fst ≠ some (nameOf name)) {k : Nat}
    (hhit : decodeDirent ((fs.imgAt dp).direntAt (fs.inode dp).inum s) = some (nameOf name, k)) :
    fs.dirlookup devsw dp name = fs.found dp s k := by
  have hinum : direntInum ((fs.imgAt dp).direntAt (fs.inode dp).inum s) = k := by
    rw [decodeDirent] at hhit
    split at hhit
    · cases hhit
    · exact (Prod.mk.inj (Option.some.inj hhit)).2
  have hloop : ∀ left s', s' ≤ s → s < s' + left → fs.dirlookupFrom devsw dp name left (DIRENT * s') = fs.found dp s k := by
    intro left
    induction left with
    | zero => intro s' hle hlt; omega
    | succ left ih =>
      intro s' hle hlt
      by_cases heq : s' = s
      · subst heq
        rw [r.dirlookupFrom hs, if_pos (by rw [hhit]; rfl), hinum]
      · have hle' : DIRENT * (s' + 1) ≤ lim := (Nat.mul_le_mul_left _ (by omega)).trans hs
        rw [r.dirlookupFrom hle', if_neg (hbefore s' (by omega)), ih (s' + 1) (by omega) (by omega)]
  have hbound : s + 1 ≤ (fs.inode dp).size.toNat / DIRENT := by
    rw [Nat.le_div_iff_mul_le (by decide), Nat.mul_comm]
    exact hs.trans r.le
  rw [Fs.dirlookup, if_neg (fun hne => hne htype)]
  exact hloop _ 0 (Nat.zero_le _) (by omega)

/-- A locked directory that has whole entries only. -/
structure OpenDir (fs : Fs) (dp : InodeIdx) : Prop where
  wf : fs.Wf
  locked : fs.Locked dp
  type : (fs.inode dp).type.toNat = T_DIR
  dvd : DIRENT ∣ (fs.inode dp).size.toNat

def dirAt (fs : Fs) (dp : InodeIdx) : Table (List UInt8) Nat := fs.img.dir (fs.inode dp).inum

namespace OpenDir

section
variable (d : fs.OpenDir dp)
include d

theorem not_dev : (fs.inode dp).type.toNat ≠ T_DEV := by
  rw [d.type]
  decide

theorem readable : fs.Readable dp (fs.inode dp).size.toNat :=
  ⟨d.wf.working d.locked, d.not_dev, le_rfl, d.wf.size_le d.locked d.not_dev, fun _ hbn => d.wf.alloc_old d.locked d.not_dev hbn⟩

theorem size_eq : (fs.inode dp).size.toNat = DIRENT * (fs.dirAt dp).size := by
  have hsize : (fs.dirAt dp).size = (fs.inode dp).size.toNat / DIRENT := by
    rw [← (d.wf.synced dp d.locked.1 d.locked.2.2).1]
    rfl
  rw [hsize, Nat.mul_div_cancel' d.dvd]

theorem off_lt (s : Nat) : DIRENT * s < (fs.inode dp).size.toNat ↔ s < (fs.dirAt dp).size := by
  rw [d.size_eq]
  exact Nat.mul_lt_mul_left (by decide)

theorem entry_le {s : Nat} (h : s < (fs.dirAt dp).size) : DIRENT * (s + 1) ≤ (fs.inode dp).size.toNat := by
  rw [d.size_eq]
  exact Nat.mul_le_mul_left _ h

theorem slot {s : Nat} (h : s < (fs.dirAt dp).size) :
    decodeDirent ((fs.imgAt dp).direntAt (fs.inode dp).inum s) = (fs.dirAt dp).slot s := by
  rw [d.wf.imgAt_eq d.locked]
  exact (Img.slot_dir h).symm

theorem dirlookup_some {name : Nat → UInt8} {s k : Nat} (hfind : (fs.dirAt dp).find (nameOf name) = some s)
    (hk : (fs.dirAt dp).slot s = some (nameOf name, k)) : fs.dirlookup devsw dp name = fs.found dp s k := by
  have hlt := Table.lt_size hk
  refine d.readable.dirlookup_hit d.type (d.entry_le hlt) (fun s' hs' hname => ?_) (by rw [d.slot hlt, hk])
  rw [d.slot (hs'.trans hlt), Option.map_eq_some_iff] at hname
  obtain ⟨⟨_, k'⟩, hk', rfl⟩ := hname
  exact (Table.find_eq_some hfind).2 s' hs' k' hk'

theorem dirlookup_none {name : Nat → UInt8} (hfind : (fs.dirAt dp).find (nameOf name) = none) :
    fs.dirlookup devsw dp name = .ok (none, fs) := by
  have hloop : ∀ left s, fs.dirlookupFrom devsw dp name left (DIRENT * s) = .ok (none, fs) := by
    intro left
    induction left with
    | zero => exact fun s => rfl
    | succ left ih =>
      intro s
      by_cases hlt : s < (fs.dirAt dp).size
      · have hnot : (decodeDirent ((fs.imgAt dp).direntAt (fs.inode dp).inum s)).map Prod.fst ≠ some (nameOf name) := by
          rw [d.slot hlt, Ne, Option.map_eq_some_iff]
          rintro ⟨⟨_, k⟩, hk, rfl⟩
          exact Table.find_eq_none hfind s k hk
        rw [d.readable.dirlookupFrom (d.entry_le hlt), if_neg hnot, ih]
      · rw [Fs.dirlookupFrom, if_neg (mt (d.off_lt s).mp hlt)]
  rw [Fs.dirlookup, if_neg (fun hne => hne d.type)]
  exact hloop _ 0

end

end OpenDir

/-! ### Slots of the cache -/

theorem Super.ilock {i : InodeIdx} {ip : Inode} (hs : fs.Super) (hip : fs.inode i = ip) (href : 0 < ip.ref) (hbusy : ip.busy = false)
    (hvalid : ip.valid = false) (hdev : ip.dev = ROOTDEV) (hinum : ip.inum < fs.sb.ninodes)
    (htype : (fs.img.ino ip.inum).type ≠ 0) :
    fs.ilock i = .ok (fs.setInode i { ip with toDinode := fs.img.ino ip.inum, busy := true, valid := true }) := by
  have hib := hs.ok.iblock_lt hinum
  have hbm := hs.ok.bmapstart_lt
  have hfits := hs.ok.fits
  have hino : fs.img.ino ip.inum = readDinode (fs.blk (fs.sb.iblock ip.inum)) ip.inum := if_pos hinum
  rw [Fs.ilock, hip, if_neg (by omega), hbusy, hvalid]
  simp only [Bool.false_eq_true, if_false]
  rw [hdev, hs.bread (by omega), Outcome.ok_bind, ← hino, if_neg htype]
  rfl

theorem Wf.ilock {i : InodeIdx} (wf : fs.Wf) (hpos : 0 < (fs.inode i).ref) (hbusy : (fs.inode i).busy = false)
    (htype : (fs.img.ino (fs.inode i).inum).type ≠ 0) : fs.ilock i =
      .ok (fs.setInode i { fs.inode i with toDinode := fs.img.ino (fs.inode i).inum, busy := true, valid := true }) := by
  obtain ⟨hdev, hinum⟩ := wf.slot i hpos
  cases hvalid : (fs.inode i).valid with
  | false => exact wf.super.ilock rfl hpos hbusy hvalid hdev hinum htype
  | true =>
    rw [Fs.ilock, if_neg (by omega), if_neg (by simp [hbusy]), if_pos hvalid, (wf.synced i hpos hvalid).1, ← hvalid]

theorem Locked.iunlock {i : InodeIdx} (hl : fs.Locked i) :
    fs.iunlock i = .ok (fs.setInode i { fs.inode i with busy := false }) := by
  rw [Fs.iunlock, if_neg (by simp [hl.2.1, Nat.pos_iff_ne_zero.mp hl.1])]

theorem iput_eq {i : InodeIdx} (h : ¬LastPut (fs.inode i)) :
    fs.iput i = .ok (fs.setInode i { fs.inode i with ref := (fs.inode i).ref - 1 }) := by
  unfold LastPut at h
  rw [Fs.iput, if_neg h]
  rfl

theorem iget_ok (fs : Fs) (dev inum : Nat) (h : ∃ j, (fs.inode j).ref = 0) : ∃ r, fs.iget dev inum = .ok r ∧ Got fs dev inum r := by
  obtain ⟨j, hj⟩ := h
  have hsome : fs.iget dev inum ≠ .panic "iget: no inodes" := by
    unfold iget
    dsimp only
    split
    · exact fun h => nomatch h
    · split
      · exact fun h => nomatch h
      · rename_i hnone
        exact absurd hj (by simpa using List.find?_eq_none.mp hnone j (List.mem_finRange j))
  have hspec := iget_spec fs dev inum
  cases hget : fs.iget dev inum with
  | ok r =>
    rw [hget] at hspec
    exact ⟨r, rfl, hspec⟩
  | sleep =>
    rw [hget] at hspec
    exact nomatch hspec
  | panic msg =>
    rw [hget] at hspec hsome
    exact absurd (congrArg Outcome.panic (Option.some.inj hspec)) hsome

end Fs
end Xv6
