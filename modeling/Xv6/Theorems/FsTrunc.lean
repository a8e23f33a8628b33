import Xv6.Theorems.Files

/-! `itrunc` and `iput`: an inode that is given up gives all its blocks back. The blocks still to be freed are in
    flight, in the order in which `itrunc` frees them. -/

namespace Xv6
open Function (update update_eq_self update_idem update_of_ne update_self)
open Outcome (ok_bind pure_eq)
open Bytes Ownership

/-! ### The blocks of an inode -/

/-- The places of an inode, in the order in which `itrunc` frees their blocks. -/
def placesOf (inum : Nat) : List Place :=
  (List.finRange NDIRECT).map (fun k => Place.addr inum k.castSucc) ++
    ((List.finRange NINDIRECT).map (Place.entry inum) ++ [.addr inum INDIRECT])

theorem mem_placesOf {inum : Nat} {p : Place} : p ∈ placesOf inum ↔ p.inum = inum := by
  constructor
  · intro h
    simp only [placesOf, List.mem_append, List.mem_map, List.mem_finRange, true_and, List.mem_singleton] at h
    rcases h with ⟨k, rfl⟩ | ⟨k, rfl⟩ | rfl <;> rfl
  · rintro rfl
    cases p with
    | addr i k =>
      induction k using Fin.lastCases with
      | last => simp [placesOf, Place.inum]
      | cast k => simp [placesOf, Place.inum]
    | entry i j => simp [placesOf, Place.inum]

theorem nodup_placesOf (inum : Nat) : (placesOf inum).Nodup := by
  have hdirect : ((List.finRange NDIRECT).map fun k => Place.addr inum k.castSucc).Nodup :=
    (List.nodup_finRange NDIRECT).map fun k k' h => Fin.castSucc_injective NDIRECT (Place.addr.inj h).2
  have hentry : ((List.finRange NINDIRECT).map (Place.entry inum)).Nodup :=
    (List.nodup_finRange NINDIRECT).map fun j j' h => (Place.entry.inj h).2
  refine hdirect.append (hentry.append (List.nodup_singleton _) ?_) ?_
  · rw [List.disjoint_singleton]
    simp
  · rw [List.disjoint_left]
    intro p hp hmem
    obtain ⟨k, -, rfl⟩ := List.mem_map.mp hp
    simp [Fin.castSucc_ne_last] at hmem

namespace Img
variable {sb : Superblock} {g : Img} {inum b : Nat} {d : Dinode}

def blocksAt (g : Img) (ps : List Place) : List Nat := (ps.map g.ptr).filter (· ≠ 0)

theorem mem_blocksAt {ps : List Place} : b ∈ g.blocksAt ps ↔ b ≠ 0 ∧ ∃ p ∈ ps, g.ptr p = b := by
  simp only [blocksAt, List.mem_filter, List.mem_map, decide_eq_true_eq]
  exact and_comm

theorem blocksAt_append (ps qs : List Place) : g.blocksAt (ps ++ qs) = g.blocksAt ps ++ g.blocksAt qs := by
  simp [blocksAt]

theorem Owned.nodup_blocksAt {flight : Set Nat} (h : g.Owned sb flight) {ps : List Place} (hps : ps.Nodup) :
    (g.blocksAt ps).Nodup := by
  induction ps with
  | nil => exact List.nodup_nil
  | cons p ps ih =>
    obtain ⟨hp, hps⟩ := List.nodup_cons.mp hps
    by_cases hz : g.ptr p = 0
    · simpa [blocksAt, hz] using ih hps
    · have hcons : g.blocksAt (p :: ps) = g.ptr p :: g.blocksAt ps := by simp [blocksAt, hz]
      rw [hcons, List.nodup_cons]
      refine ⟨fun hmem => ?_, ih hps⟩
      obtain ⟨-, q, hq, heq⟩ := mem_blocksAt.mp hmem
      exact hp (h.inj p q hz heq.symm ▸ hq)

theorem ptr_of_addr_zero (h : ∀ k, g.addr inum k = 0) {p : Place} (hp : p.inum = inum) : g.ptr p = 0 := by
  cases p with
  | addr i k =>
    obtain rfl : i = inum := hp
    exact h k
  | entry i j =>
    obtain rfl : i = inum := hp
    exact ptr_entry_zero (h _)

theorem ptr_free (hfree : (g.ino inum).type = 0) {p : Place} (hp : p.inum = inum) : g.ptr p = 0 :=
  ptr_of_addr_zero (fun _ => if_pos hfree) hp

theorem ptr_empty (hd : ∀ k, (g.ino inum).addrs k = 0) {p : Place} (hp : p.inum = inum) : g.ptr p = 0 := by
  refine ptr_of_addr_zero (fun k => ?_) hp
  rw [addr, hd]
  split <;> rfl

theorem ptr_setIno_empty (hd : ∀ k, d.addrs k = 0) {p : Place} (hp : p.inum = inum) : (g.setIno inum d).ptr p = 0 :=
  ptr_empty (by rw [ino_setIno_self]; exact hd) hp

theorem ptr_congr {g' : Img} {p : Place} (hino : g'.ino p.inum = g.ino p.inum) (hdata : g'.data = g.data) :
    g'.ptr p = g.ptr p := by
  have haddr : ∀ k, g'.addr p.inum k = g.addr p.inum k := fun k => by rw [addr, addr, hino]
  cases p with
  | addr i k => exact haddr k
  | entry i j => rw [ptr, ptr, show g'.addr i _ = g.addr i _ from haddr _, hdata]

theorem Owned.drop (h : g.Owned sb ∅) (hd : ∀ k, d.addrs k = 0) :
    (g.setIno inum d).Owned sb {b | b ∈ g.blocksAt (placesOf inum)} := by
  have hlose : (g.setIno inum d).Owned sb
      (∅ ∪ {b | b ≠ 0 ∧ ∃ p, g.ptr p = b ∧ (g.setIno inum d).ptr p = 0}) := Owns.lose h fun p => by
    by_cases hp : p.inum = inum
    · exact Or.inr (ptr_setIno_empty hd hp)
    · exact Or.inl (ptr_setIno_of_ne hp)
  have hset : (∅ ∪ {b | b ≠ 0 ∧ ∃ p, g.ptr p = b ∧ (g.setIno inum d).ptr p = 0} : Set Nat) =
      {b | b ∈ g.blocksAt (placesOf inum)} := by
    ext b
    simp only [Set.empty_union, Set.mem_ofPred_eq, mem_blocksAt]
    refine and_congr_right fun hb => exists_congr fun p => ?_
    rw [mem_placesOf, and_comm]
    refine and_congr_left fun hpb => ⟨fun hzero => ?_, ptr_setIno_empty hd⟩
    by_contra hp
    rw [ptr_setIno_of_ne hp, hpb] at hzero
    exact hb hzero
  rw [hset] at hlose
  exact hlose

end Img

namespace Fs
variable {fs fs' : Fs} {i : InodeIdx} {inum b : Nat} {d : Dinode} {bs : List Nat}

/-! ### The loops of `itrunc` -/

/-- In the middle of `itrunc`: if inode `inum` were `d`, all would be in order except that the blocks `bs` are still
    to be freed. -/
structure Freeing (fs : Fs) (inum : Nat) (d : Dinode) (bs : List Nat) : Prop where
  super : fs.Super
  owned : (fs.img.setIno inum d).Owned fs.sb {b | b ∈ bs}
  nodup : bs.Nodup

structure Freed (fs fs' : Fs) : Prop where
  sb : fs'.sb = fs.sb
  disksize : fs'.disksize = fs.disksize
  ino : fs'.img.ino = fs.img.ino
  data : fs'.img.data = fs.img.data

theorem Freed.refl (fs : Fs) : Freed fs fs := ⟨rfl, rfl, rfl, rfl⟩

theorem Freed.trans {fs'' : Fs} (h : Freed fs fs') (h' : Freed fs' fs'') : Freed fs fs'' :=
  ⟨h'.sb.trans h.sb, h'.disksize.trans h.disksize, h'.ino.trans h.ino, h'.data.trans h.data⟩

theorem Freeing.bfree (h : fs.Freeing inum d (b :: bs)) :
    ∃ fs', fs.bfree ROOTDEV b = .ok fs' ∧ fs'.Freeing inum d bs ∧ Freed fs fs' ∧ fs'.inode = fs.inode := by
  obtain ⟨hb, hbs⟩ := List.nodup_cons.mp h.nodup
  have hmem : b ∈ {c | c ∈ b :: bs} := List.mem_cons_self
  have hlt := (h.owned.inFlight b hmem).2
  have hused : fs.img.used b = true := (h.owned.used_iff b hlt).mpr (Or.inr (Or.inr hmem))
  obtain ⟨fs', hfree, hsuper, himg, hmem'⟩ := bfree_ok h.super hlt hused
  refine ⟨fs', hfree, ⟨hsuper, ?_, hbs⟩, ⟨hmem'.sb, hmem'.disksize, ?_, ?_⟩, hmem'.inode⟩
  · have hset : {c | c ∈ b :: bs} \ {b} = {c | c ∈ bs} := by
      ext c
      simp only [List.mem_cons, Set.mem_sdiff, Set.mem_ofPred_eq, Set.mem_singleton_iff]
      refine ⟨fun hc => hc.1.resolve_left hc.2, fun hc => ⟨Or.inr hc, ?_⟩⟩
      rintro rfl
      exact hb hc
    rw [hmem'.sb, himg, ← hset]
    exact Owns.free h.owned hmem
  · rw [himg]
    rfl
  · rw [himg]
    rfl

theorem Freeing.setInode (h : fs.Freeing inum d bs) (ip : Inode) : (fs.setInode i ip).Freeing inum d bs :=
  ⟨⟨h.super.ok, h.super.block, h.super.disk⟩, h.owned, h.nodup⟩

def clearAddrs (as : Fin (NDIRECT + 1) → UInt32) (ks : List (Fin NDIRECT)) (k : Fin (NDIRECT + 1)) : UInt32 :=
  if k ∈ ks.map Fin.castSucc then 0 else as k

theorem clearAddrs_nil (as : Fin (NDIRECT + 1) → UInt32) : clearAddrs as [] = as := by
  funext k
  simp [clearAddrs]

theorem clearAddrs_cons (as : Fin (NDIRECT + 1) → UInt32) (k : Fin NDIRECT) (ks : List (Fin NDIRECT)) :
    clearAddrs as (k :: ks) = clearAddrs (update as k.castSucc 0) ks := by
  funext k'
  by_cases hk' : k' = k.castSucc
  · subst hk'
    simp [clearAddrs]
  · simp [clearAddrs, hk']

theorem clearAddrs_all (as : Fin (NDIRECT + 1) → UInt32) : clearAddrs as (List.finRange NDIRECT) =
    update (fun _ => 0) INDIRECT (as INDIRECT) := by
  funext k
  induction k using Fin.lastCases with
  | last => simp [clearAddrs, Fin.castSucc_ne_last]
  | cast k => simp [clearAddrs, Fin.castSucc_ne_last]

theorem itruncDirect_ok {as : Fin (NDIRECT + 1) → UInt32} : ∀ (ks : List (Fin NDIRECT)) (fs : Fs), ks.Nodup →
    (fs.inode i).dev = ROOTDEV → (∀ k ∈ ks, (fs.inode i).addrs k.castSucc = as k.castSucc) →
    fs.Freeing inum d ((ks.map fun k => (as k.castSucc).toNat).filter (· ≠ 0) ++ bs) →
    ∃ fs', fs.itruncDirect i ks = .ok fs' ∧ fs'.Freeing inum d bs ∧ Freed fs fs' ∧
      fs'.inode = update fs.inode i
        { fs.inode i with addrs := clearAddrs (fs.inode i).addrs ks }
  | [], fs, _, _, _, h => by
    refine ⟨fs, rfl, h, .refl fs, ?_⟩
    rw [clearAddrs_nil, update_eq_self]
  | k :: ks, fs, hnodup, hdev, has, h => by
    obtain ⟨hk, hks⟩ := List.nodup_cons.mp hnodup
    have hself := has k List.mem_cons_self
    have hrest : ∀ k' ∈ ks, (fs.inode i).addrs k'.castSucc = as k'.castSucc := fun k' hk' => has k' (List.mem_cons_of_mem k hk')
    rw [itruncDirect, hself]
    by_cases hz : as k.castSucc = 0
    · rw [if_pos hz]
      have hcons : ((k :: ks).map fun k => (as k.castSucc).toNat).filter (· ≠ 0) =
          (ks.map fun k => (as k.castSucc).toNat).filter (· ≠ 0) := by simp [hz]
      rw [hcons] at h
      obtain ⟨fs', hrun, hfree, hkept, hinode⟩ := itruncDirect_ok ks fs hks hdev hrest h
      refine ⟨fs', hrun, hfree, hkept, ?_⟩
      have hsame : update (fs.inode i).addrs k.castSucc 0 = (fs.inode i).addrs := by
        rw [← hz, ← hself, update_eq_self]
      rw [hinode, clearAddrs_cons, hsame]
    · rw [if_neg hz]
      have hz' : (as k.castSucc).toNat ≠ 0 := fun h0 => hz (UInt32.toNat_inj.mp h0)
      have hcons : ((k :: ks).map fun k => (as k.castSucc).toNat).filter (· ≠ 0) =
          (as k.castSucc).toNat :: (ks.map fun k => (as k.castSucc).toNat).filter (· ≠ 0) := by simp [hz']
      rw [hcons, List.cons_append] at h
      obtain ⟨fs₁, hfree₁, hfreeing₁, hkept₁, hinode₁⟩ := h.bfree
      rw [hdev, hfree₁, ok_bind]
      have hslot : (fs₁.setAddr i k.castSucc 0).inode i =
          { fs.inode i with addrs := update (fs.inode i).addrs k.castSucc 0 } := by
        simp [setAddr, Fs.setInode, hinode₁]
      obtain ⟨fs', hrun, hfree, hkept, hinode⟩ := itruncDirect_ok ks (fs₁.setAddr i k.castSucc 0) hks
        (by rw [hslot]; exact hdev) (fun k' hk' => by
          rw [hslot]
          show update _ _ _ _ = _
          have hne : k'.castSucc ≠ k.castSucc := fun heq => hk ((Fin.castSucc_injective NDIRECT heq) ▸ hk')
          rw [update_of_ne hne]
          exact hrest k' hk') (hfreeing₁.setInode _)
      refine ⟨fs', hrun, hfree, hkept₁.trans ⟨hkept.sb, hkept.disksize, hkept.ino, hkept.data⟩, ?_⟩
      rw [hinode, hslot, clearAddrs_cons]
      simp only [setAddr, Fs.setInode, hinode₁, update_idem]

theorem itruncIndirect_ok {x : Block} : ∀ (js : List Nat) (fs : Fs),
    fs.Freeing inum d ((js.map fun j => x.word 4 (4 * j)).filter (· ≠ 0) ++ bs) →
    ∃ fs', fs.itruncIndirect ROOTDEV x js = .ok fs' ∧ fs'.Freeing inum d bs ∧ Freed fs fs' ∧ fs'.inode = fs.inode
  | [], fs, h => ⟨fs, rfl, h, .refl fs, rfl⟩
  | j :: js, fs, h => by
    rw [itruncIndirect]
    by_cases hz : x.word 4 (4 * j) = 0
    · rw [if_pos hz]
      exact itruncIndirect_ok js fs (by simpa [hz] using h)
    · rw [if_neg hz]
      have hcons : ((j :: js).map fun j => x.word 4 (4 * j)).filter (· ≠ 0) =
          x.word 4 (4 * j) :: (js.map fun j => x.word 4 (4 * j)).filter (· ≠ 0) := by simp [hz]
      rw [hcons, List.cons_append] at h
      obtain ⟨fs₁, hfree₁, hfreeing₁, hkept₁, hinode₁⟩ := h.bfree
      rw [hfree₁, ok_bind]
      obtain ⟨fs', hrun, hfree, hkept, hinode⟩ := itruncIndirect_ok js fs₁ hfreeing₁
      exact ⟨fs', hrun, hfree, hkept₁.trans hkept, hinode.trans hinode₁⟩

/-! ### `itrunc` -/

theorem Working.addr (w : fs.Working i) (k : Fin (NDIRECT + 1)) :
    (fs.imgAt i).addr (fs.inode i).inum k = ((fs.inode i).addrs k).toNat := by
  rw [imgAt, Img.addr_setIno, if_neg w.type]

theorem Working.blocksAt_direct (w : fs.Working i) :
    (fs.imgAt i).blocksAt ((List.finRange NDIRECT).map fun k => .addr (fs.inode i).inum k.castSucc) =
      ((List.finRange NDIRECT).map fun k => ((fs.inode i).addrs k.castSucc).toNat).filter (· ≠ 0) := by
  rw [Img.blocksAt, List.map_map]
  congr 2
  funext k
  exact w.addr k.castSucc

theorem Working.blocksAt_none (w : fs.Working i) (h : (fs.inode i).addrs INDIRECT = 0) :
    (fs.imgAt i).blocksAt ((List.finRange NINDIRECT).map (Place.entry (fs.inode i).inum) ++
      [.addr (fs.inode i).inum INDIRECT]) = [] := by
  have hlast : (fs.imgAt i).addr (fs.inode i).inum INDIRECT = 0 := by rw [w.addr, h, UInt32.toNat_zero]
  refine List.eq_nil_iff_forall_not_mem.mpr fun b hb => ?_
  obtain ⟨hne, p, hp, hpb⟩ := Img.mem_blocksAt.mp hb
  simp only [List.mem_append, List.mem_map, List.mem_finRange, true_and, List.mem_singleton] at hp
  rcases hp with ⟨j, rfl⟩ | rfl
  · exact hne (hpb.symm.trans (Img.ptr_entry_zero hlast))
  · exact hne (hpb.symm.trans hlast)

theorem Working.blocksAt_indirect (w : fs.Working i) (h : (fs.inode i).addrs INDIRECT ≠ 0) :
    (fs.imgAt i).blocksAt ((List.finRange NINDIRECT).map (Place.entry (fs.inode i).inum) ++
        [.addr (fs.inode i).inum INDIRECT]) =
      ((List.range NINDIRECT).map fun j =>
        (fs.img.data ((fs.inode i).addrs INDIRECT).toNat).word 4 (4 * j)).filter (· ≠ 0) ++
      [((fs.inode i).addrs INDIRECT).toNat] := by
  have hlast := w.addr INDIRECT
  have hne : ((fs.inode i).addrs INDIRECT).toNat ≠ 0 := fun h0 => h (UInt32.toNat_inj.mp h0)
  rw [Img.blocksAt_append]
  congr 1
  · rw [Img.blocksAt, List.map_map, ← List.map_coe_finRange_eq_range, List.map_map]
    congr 2
    funext j
    show (fs.imgAt i).ptr (.entry (fs.inode i).inum j) = _
    rw [Img.ptr_entry (by rw [hlast]; exact hne), hlast]
    rfl
  · have hptr : (fs.imgAt i).ptr (.addr (fs.inode i).inum INDIRECT) =
        ((fs.inode i).addrs INDIRECT).toNat := hlast
    simp [Img.blocksAt, hptr, hne]

def truncated (ip : Inode) : Inode := { ip with addrs := fun _ => 0, size := 0 }

structure Truncated (fs fs' : Fs) (i : InodeIdx) : Prop where
  super : fs'.Super
  sb : fs'.sb = fs.sb
  disksize : fs'.disksize = fs.disksize
  inode : fs'.inode = update fs.inode i (truncated (fs.inode i))
  ino : fs'.img.ino = update fs.img.ino (fs.inode i).inum (truncated (fs.inode i)).toDinode
  data : fs'.img.data = fs.img.data
  owned : fs'.img.Owned fs'.sb ∅

theorem Freeing.truncated (h : fs'.Freeing (fs.inode i).inum (truncated (fs.inode i)).toDinode []) (w : fs.Working i)
    (hkept : Freed fs fs') (hinode : ∃ size, fs'.inode = update fs.inode i { truncated (fs.inode i) with size := size }) :
    ∃ fs'', (fs'.setInode i { fs'.inode i with size := 0 }).iupdate i = .ok fs'' ∧ Truncated fs fs'' i := by
  obtain ⟨size, hinode⟩ := hinode
  have hset : (fs'.setInode i { fs'.inode i with size := 0 }).inode = update fs.inode i (Fs.truncated (fs.inode i)) := by
    simp [Fs.setInode, hinode, Fs.truncated]
  have hself : (fs'.setInode i { fs'.inode i with size := 0 }).inode i = Fs.truncated (fs.inode i) := by
    rw [hset, update_self]
  obtain ⟨fs'', hup, hs, himg, hmem⟩ := iupdate_ok (h.setInode (i := i) { fs'.inode i with size := 0 }).super
    (by rw [hself]; exact w.dev) (by rw [hself]; show _ < fs'.sb.ninodes; rw [hkept.sb]; exact w.inum)
  rw [hself] at himg
  have hnil : ({b | b ∈ ([] : List Nat)} : Set Nat) = ∅ := by
    ext b
    simp
  refine ⟨fs'', hup, hs, hmem.sb.trans hkept.sb, hmem.disksize.trans hkept.disksize, hmem.inode.trans hset, ?_, ?_, ?_⟩
  · rw [himg, ← hkept.ino]
    rfl
  · rw [himg, ← hkept.data]
    rfl
  · have := h.owned
    rw [hnil] at this
    rw [himg, hmem.sb]
    exact this

theorem itrunc_ok (w : fs.Working i) : ∃ fs', fs.itrunc i = .ok fs' ∧ Truncated fs fs' i := by
  have hview : fs.img.setIno (fs.inode i).inum (truncated (fs.inode i)).toDinode =
      (fs.imgAt i).setIno (fs.inode i).inum (truncated (fs.inode i)).toDinode := (Img.setIno_setIno ..).symm
  have hstart : fs.Freeing (fs.inode i).inum (truncated (fs.inode i)).toDinode
      ((fs.imgAt i).blocksAt (placesOf (fs.inode i).inum)) := by
    refine ⟨w.super, ?_, w.owned.nodup_blocksAt (nodup_placesOf _)⟩
    rw [hview]
    exact w.owned.drop fun _ => rfl
  rw [placesOf, Img.blocksAt_append, w.blocksAt_direct] at hstart
  obtain ⟨fs₁, hrun₁, hfree₁, hkept₁, hinode₁⟩ := itruncDirect_ok (i := i) (List.finRange NDIRECT) fs
    (List.nodup_finRange NDIRECT) w.dev (fun _ _ => rfl) hstart
  have hslot₁ : fs₁.inode i = { fs.inode i with addrs := clearAddrs (fs.inode i).addrs (List.finRange NDIRECT) } := by
    rw [hinode₁, update_self]
  rw [clearAddrs_all] at hinode₁ hslot₁
  have hlast : (fs₁.inode i).addrs INDIRECT = (fs.inode i).addrs INDIRECT := by
    rw [hslot₁]
    simp
  have hdev : (fs₁.inode i).dev = ROOTDEV := by
    rw [hslot₁]
    exact w.dev
  have hzeros : update (fun _ => 0) INDIRECT 0 = fun _ => (0 : UInt32) :=
    update_eq_self INDIRECT fun _ => 0
  rw [itrunc, hrun₁, ok_bind]
  dsimp only
  rw [hlast, hdev]
  by_cases hz : (fs.inode i).addrs INDIRECT = 0
  · rw [if_pos hz, pure_eq, ok_bind]
    rw [w.blocksAt_none hz] at hfree₁
    refine hfree₁.truncated w hkept₁ ⟨(fs.inode i).size, ?_⟩
    rw [hinode₁, hz, hzeros]
    rfl
  · rw [if_neg hz]
    rw [w.blocksAt_indirect hz, ← hkept₁.data] at hfree₁
    -- The indirect block is still in use when it is read, and freed after all its entries.
    obtain ⟨hlo, hlt⟩ := hfree₁.owned.inFlight ((fs.inode i).addrs INDIRECT).toNat
      (List.mem_append_right _ List.mem_cons_self)
    have hblk : fs₁.blk ((fs.inode i).addrs INDIRECT).toNat =
        fs₁.img.data ((fs.inode i).addrs INDIRECT).toNat := (if_pos hlo).symm
    rw [hfree₁.super.bread hlt, ok_bind, hblk]
    obtain ⟨fs₂, hrun₂, hfree₂, hkept₂, hinode₂⟩ := itruncIndirect_ok _ fs₁ hfree₁
    rw [hrun₂, ok_bind]
    obtain ⟨fs₃, hrun₃, hfree₃, hkept₃, hinode₃⟩ := hfree₂.bfree
    rw [hrun₃, ok_bind, pure_eq, ok_bind]
    have hkept := (hkept₁.trans hkept₂).trans hkept₃
    refine (hfree₃.setInode _).truncated w ⟨hkept.sb, hkept.disksize, hkept.ino, hkept.data⟩ ⟨(fs.inode i).size, ?_⟩
    simp only [Fs.setInode, hinode₃, hinode₂, hinode₁, update_self, update_idem]
    simp only [show UInt32.ofNat 0 = 0 from rfl, hzeros, truncated]

/-! ### `iput` -/

@[simp] theorem inode_setInode_self (fs : Fs) (i : InodeIdx) (ip : Inode) : (fs.setInode i ip).inode i = ip :=
  update_self ..

theorem inode_setInode_of_ne (fs : Fs) {i j : InodeIdx} (h : j ≠ i) (ip : Inode) : (fs.setInode i ip).inode j = fs.inode j :=
  update_of_ne h _ _

@[simp] theorem setInode_setInode (fs : Fs) (i : InodeIdx) (ip ip' : Inode) :
    (fs.setInode i ip).setInode i ip' = fs.setInode i ip' := by
  simp [Fs.setInode]

/-- `iput` frees the inode: the reference is the last one, and no directory names the inode. -/
def LastPut (ip : Inode) : Prop := ip.ref = 1 ∧ ip.valid = true ∧ ip.nlink = 0

/-- The file system is in order again, and pointers have only been dropped. -/
structure Drops (fs fs' : Fs) : Prop where
  wf : fs'.Wf
  sb : fs'.sb = fs.sb
  ptr : ∀ p, fs'.img.ptr p ≠ 0 → fs'.img.ptr p = fs.img.ptr p

structure Put (fs fs' : Fs) (i : InodeIdx) : Prop extends Drops fs fs' where
  freed : LastPut (fs.inode i) → (fs'.img.ino (fs.inode i).inum).type = 0 ∧
    ∀ p : Place, p.inum = (fs.inode i).inum → fs.img.ptr p ≠ 0 → fs'.img.used (fs.img.ptr p) = false

theorem Truncated.put (wf : fs.Wf) (hlast : LastPut (fs.inode i)) {fs₁ : Fs} {busy : Bool}
    (ht : Truncated (fs.setInode i { fs.inode i with busy := busy }) fs₁ i) :
    ∃ fs₂, (fs₁.setInode i { fs₁.inode i with type := 0 }).iupdate i = .ok fs₂ ∧
      fs₂.inode i = { truncated (fs.inode i) with busy := busy, type := 0 } ∧
      ∀ ip : Inode, ip.ref = 0 → ip.inum = (fs.inode i).inum → ip.dev = (fs.inode i).dev →
        Put fs (fs₂.setInode i ip) i := by
  have hpos : 0 < (fs.inode i).ref := by rw [hlast.1]; exact Nat.one_pos
  have hself : (fs₁.setInode i { fs₁.inode i with type := 0 }).inode i =
      { truncated (fs.inode i) with busy := busy, type := 0 } := by
    simp [Fs.setInode, ht.inode, truncated]
  obtain ⟨hdev, hinum⟩ := wf.slot i hpos
  have hinum₁ : (fs.inode i).inum < fs₁.sb.ninodes := by
    rw [ht.sb]
    exact hinum
  have hs₁ : (fs₁.setInode i { fs₁.inode i with type := 0 }).Super := ⟨ht.super.ok, ht.super.block, ht.super.disk⟩
  obtain ⟨fs₂, hup, hs, himg, hmem⟩ := iupdate_ok (i := i) hs₁ (by rw [hself]; exact hdev) (by rw [hself]; exact hinum₁)
  rw [hself] at himg
  replace himg : fs₂.img = fs₁.img.setIno (fs.inode i).inum { (truncated (fs.inode i)).toDinode with type := 0 } := himg
  -- The inode has no pointers any more, the others have theirs.
  have hself₁ : fs₁.img.ino (fs.inode i).inum = (truncated (fs.inode i)).toDinode := by
    rw [ht.ino]
    simp [Fs.setInode, truncated]
  have hother₁ : ∀ j, j ≠ (fs.inode i).inum → fs₁.img.ino j = fs.img.ino j := fun j hj => by
    rw [ht.ino]
    exact update_of_ne (by simpa [Fs.setInode] using hj) _ _
  have hptr : ∀ p : Place, p.inum ≠ (fs.inode i).inum → fs₂.img.ptr p = fs.img.ptr p := fun p hp => by
    rw [himg, Img.ptr_setIno_of_ne hp]
    exact Img.ptr_congr (hother₁ _ hp) ht.data
  have hzero : ∀ p : Place, p.inum = (fs.inode i).inum → fs₂.img.ptr p = 0 := fun p hp => by
    rw [himg]
    exact Img.ptr_setIno_empty (fun _ => rfl) hp
  have howned : fs₂.img.Owned fs₂.sb ∅ := by
    have hsame : ∀ p, fs₂.img.ptr p = fs₁.img.ptr p := fun p => by
      by_cases hp : p.inum = (fs.inode i).inum
      · rw [hzero p hp, Img.ptr_empty (fun k => by rw [hself₁]; rfl) hp]
      · rw [himg, Img.ptr_setIno_of_ne hp]
    have := ht.owned
    unfold Img.Owned at this ⊢
    rw [funext hsame, hmem.sb, himg]
    exact this
  have hsb : fs₂.sb = fs.sb := hmem.sb.trans ht.sb
  have hfree : (fs₂.img.ino (fs.inode i).inum).type = 0 := by rw [himg, Img.ino_setIno_self]
  refine ⟨fs₂, hup, by rw [hmem.inode, hself], fun ip href hip hipdev =>
    ⟨⟨?_, hsb, fun p hp => ?_⟩, fun _ => ⟨hfree, fun p hp hne => ?_⟩⟩⟩
  · refine wf.replace (m := (fs.inode i).inum) ⟨hs.ok, hs.block, hs.disk⟩ hsb (fun j => ?_) howned (fun j hj => ?_) hptr
      (fun htype => absurd hfree htype) fun j hj hjm _ => ?_
    · by_cases hji : j = i
      · subst hji
        simp only [Fs.setInode, update_self]
        exact Or.inr ⟨hpos, trivial, hip, hipdev⟩
      · left
        simp only [Fs.setInode, update_of_ne hji, hmem.inode, ht.inode]
    · show fs₂.img.ino j = _
      rw [himg, ← hother₁ j hj]
      exact update_of_ne hj _ _
    · -- The slot is free now, and no other had the inode.
      by_cases hji : j = i
      · subst hji
        simp [Fs.setInode, href] at hj
      · simp only [Fs.setInode, update_of_ne hji, hmem.inode, ht.inode] at hj hjm
        exact absurd (wf.uniq j i hj hpos hjm) hji
  · by_cases hpi : p.inum = (fs.inode i).inum
    · exact absurd (hzero p hpi) hp
    · exact hptr p hpi
  · obtain ⟨hlo, hlt⟩ := wf.owned.range p hne
    have hiff := howned.used_iff (fs.img.ptr p) (by rw [hsb]; exact hlt)
    rw [← Bool.not_eq_true]
    refine fun hused => ?_
    rcases hiff.mp hused with hmeta | ⟨q, hq, -⟩ | hmem
    · rw [hsb] at hmeta
      omega
    · by_cases hqi : q.inum = (fs.inode i).inum
      · exact hne (hq.symm.trans (hzero q hqi))
      · rw [hptr q hqi] at hq
        exact hqi (wf.owned.inj p q hne hq.symm ▸ hp)
    · exact hmem

/-- `iput` frees an inode with all its blocks, or just drops a reference; it fails only on a locked inode. -/
theorem iput_spec (wf : fs.Wf) (hpos : 0 < (fs.inode i).ref) :
    (fs.iput i).Spec (fun fs' => Put fs fs' i) fun o => o = some "iput busy" := by
  rw [iput]
  split
  · rename_i hlast
    split
    · rfl
    · obtain ⟨hdev, hinum⟩ := wf.slot i hpos
      obtain ⟨hsync, htype⟩ := wf.synced i hpos hlast.2.1
      have hself : (fs.setInode i { fs.inode i with busy := true }).inode i = { fs.inode i with busy := true } :=
        update_self ..
      have hwork : (fs.setInode i { fs.inode i with busy := true }).Working i := by
        refine ⟨⟨wf.super.ok, wf.super.block, wf.super.disk⟩, by rw [hself]; exact hdev, by rw [hself]; exact hinum,
          by rw [hself]; exact htype, ?_⟩
        rw [imgAt, hself]
        show (fs.img.setIno (fs.inode i).inum (fs.inode i).toDinode).Owned fs.sb ∅
        rw [Img.setIno, ← hsync, update_eq_self]
        exact wf.owned
      obtain ⟨fs₁, htrunc, ht⟩ := itrunc_ok hwork
      obtain ⟨fs₂, hup, hslot, hput⟩ := ht.put wf hlast
      rw [htrunc, ok_bind, hup]
      simp only [ok_bind, pure_eq, Outcome.spec_ok, setInode_setInode, inode_setInode_self, hslot]
      exact hput _ (by simp [truncated, hlast.1]) rfl rfl
  · rename_i hlast
    exact ⟨⟨wf.setSlot hpos rfl rfl (wf.synced i hpos), rfl, fun _ _ => rfl⟩, fun h => absurd h hlast⟩

end Fs
end Xv6
