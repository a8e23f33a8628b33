import Xv6.Theorems.FsTight

/-! The blocks that the functions of `fs.c` give to `log_write`. -/

namespace Xv6
open Outcome (bind_eq_ok ensures_iff ok_bind)
open Bytes Ownership

namespace Fs
variable {fs fs' fs'' : Fs} {i : InodeIdx} {b bn : Nat} {S S' : Finset Nat}

/-! ### What is logged on the way from one state to another -/

def Logs (fs fs' : Fs) (S : Finset Nat) : Prop := ∃ l, fs'.logged = l ++ fs.logged ∧ l.toFinset = S

theorem Logs.of_eq (h : fs'.logged = fs.logged) : Logs fs fs' ∅ := ⟨[], h, rfl⟩

theorem Logs.trans (h : Logs fs fs' S) (h' : Logs fs' fs'' S') : Logs fs fs'' (S ∪ S') := by
  obtain ⟨l, hl, rfl⟩ := h
  obtain ⟨l', hl', rfl⟩ := h'
  refine ⟨l' ++ l, ?_, ?_⟩
  · rw [hl', hl, List.append_assoc]
  · rw [List.toFinset_append, Finset.union_comm]

theorem Logs.congr (h : Logs fs fs' S) (hS : S = S') : Logs fs fs' S' := hS ▸ h

theorem logs_logWrite (fs : Fs) (b : Nat) (x : Block) : Logs fs (fs.logWrite b x) {b} := ⟨[b], rfl, rfl⟩

theorem Logs.of_logged {fs₁ fs₁' : Fs} (h : Logs fs fs' S) (h₁ : fs₁.logged = fs.logged) (h₁' : fs₁'.logged = fs'.logged) :
    Logs fs₁ fs₁' S := by
  obtain ⟨l, hl, hS⟩ := h
  exact ⟨l, by rw [h₁', hl, h₁], hS⟩

theorem Logs.loggedSince (h : Logs fs fs' S) : (fs.loggedSince fs').toFinset = S := by
  obtain ⟨l, hl, rfl⟩ := h
  rw [Fs.loggedSince, hl, List.length_append, Nat.add_sub_cancel, List.take_left]

/-! ### `balloc` takes the first free block -/

theorem ballocBit_below {x : Block} {size bi : Nat} : ∀ {left : Nat}, ballocBit x size b left = some bi → left ≤ BPB →
    ∀ k, BPB - left ≤ k → k < bi → x.bit k = true
  | 0, h, _ => nomatch h
  | left + 1, h, hleft => by
    intro k hk hlt
    simp only [ballocBit] at h
    split at h
    · split at h
      · rename_i hbit
        by_cases hkl : k = BPB - (left + 1)
        · rw [hkl]
          exact hbit
        · exact ballocBit_below h (by omega) k (by omega) hlt
      · cases h
        omega
    · cases h

theorem ballocFrom_first (hs : fs.Super) : ∀ left b₀ : Nat, BPB ∣ b₀ → (∀ c < b₀, c < fs.sb.size → fs.img.used c = true) →
    (fs.ballocFrom ROOTDEV left b₀).Ensures fun r =>
      (∀ c < r.1, fs.img.used c = true) ∧ Logs fs r.2 {fs.sb.bblock r.1, r.1}
  | 0, b₀, _, _ => trivial
  | left + 1, b₀, hdvd, hbelow => by
    rw [ballocFrom]
    split
    · rename_i hlt
      have hbm := fs.sb.bblock_lt hlt
      rw [hs.bread (lt_of_lt_of_le hbm.2 hs.ok.fits), ok_bind]
      split
      · rename_i bi hfound
        obtain ⟨hbi, hsize, -⟩ := ballocBit_some hfound
        refine ensures_iff.mpr ?_
        rintro ⟨a, fs'⟩ h
        obtain ⟨fs₁, hz, h⟩ := bind_eq_ok.mp h
        cases h
        refine ⟨fun c hc => ?_, ?_⟩
        · by_cases hcb : c < b₀
          · exact hbelow c hcb (by omega)
          · obtain ⟨k, rfl⟩ := Nat.exists_eq_add_of_le (Nat.not_lt.mp hcb)
            rw [used_add hdvd (by omega) (by omega)]
            exact ballocBit_below hfound (Nat.le_refl BPB) k (by omega) (by omega)
        · obtain ⟨_, -, h⟩ := bind_eq_ok.mp hz
          cases h
          rw [(bblock_add fs.sb hdvd hbi).1]
          exact ((logs_logWrite fs _ _).trans (logs_logWrite _ _ _)).congr rfl
      · rename_i hnone
        refine ballocFrom_first hs left (b₀ + BPB) (Dvd.dvd.add hdvd (dvd_refl BPB)) fun c hc hsize => ?_
        by_cases hcb : c < b₀
        · exact hbelow c hcb hsize
        · obtain ⟨bi, rfl⟩ := Nat.exists_eq_add_of_le (Nat.not_lt.mp hcb)
          have hbi : bi < BPB := by omega
          rw [used_add hdvd hbi hsize]
          exact ballocBit_none hnone (Nat.le_refl BPB) (by omega) hbi hsize
    · trivial

structure Takes (fs fs' : Fs) (taken : Finset Nat) : Prop where
  sb : fs'.sb = fs.sb
  used : ∀ c, fs'.img.used c = true ↔ fs.img.used c = true ∨ c ∈ taken
  free : ∀ c ∈ taken, c < fs.sb.size ∧ fs.img.used c = false
  first : ∀ c ∈ taken, ∀ d < c, fs.img.used d = false → d ∈ taken

theorem Takes.of_eq (hsb : fs'.sb = fs.sb) (h : fs'.img.used = fs.img.used) : Takes fs fs' ∅ where
  sb := hsb
  used c := by simp [h]
  free c hc := absurd hc (Finset.notMem_empty c)
  first c hc := absurd hc (Finset.notMem_empty c)

theorem Takes.trans {taken taken' : Finset Nat} (h : Takes fs fs' taken) (h' : Takes fs' fs'' taken') :
    Takes fs fs'' (taken ∪ taken') where
  sb := h'.sb.trans h.sb
  used c := by rw [h'.used, h.used, Finset.mem_union, or_assoc]
  free c hc := by
    rcases Finset.mem_union.mp hc with hc | hc
    · exact h.free c hc
    · obtain ⟨hlt, hfree⟩ := h'.free c hc
      refine ⟨h.sb ▸ hlt, Bool.eq_false_iff.mpr fun hused => ?_⟩
      rw [(h.used c).mpr (.inl hused)] at hfree
      cases hfree
  first c hc d hd hfree := by
    rw [Finset.mem_union]
    by_cases hdt : d ∈ taken
    · exact .inl hdt
    · rcases Finset.mem_union.mp hc with hc | hc
      · exact .inl (h.first c hc d hd hfree)
      · refine .inr (h'.first c hc d hd (Bool.eq_false_iff.mpr fun hused => ?_))
        rcases (h.used d).mp hused with hused | hused
        · rw [hused] at hfree
          cases hfree
        · exact hdt hused

theorem Takes.eq_firstFree {taken : Finset Nat} (h : Takes fs fs' taken) :
    taken = firstFree fs.sb.size fs.img.used taken.card := Ownership.eq_firstFree h.free h.first

theorem balloc_takes (hs : fs.Super) (hmeta : ∀ c < fs.sb.nmeta, fs.img.used c = true) (h : fs.balloc ROOTDEV = .ok (b, fs')) :
    Takes fs fs' {b} ∧ Logs fs fs' {fs.sb.bblock b, b} := by
  have t : fs.Taken (b, fs') := (balloc_spec hs hmeta).of_eq_ok h
  obtain ⟨hfirst, hlogs⟩ := ensures_iff.mp (ballocFrom_first hs _ 0 (dvd_zero BPB) fun c hc => absurd hc (Nat.not_lt_zero c)) _ h
  refine ⟨⟨t.mem.sb, fun c => ?_, fun c hc => ?_, fun c hc d hd hfree => ?_⟩, hlogs⟩
  · have himg : fs'.img = _ := t.img
    rw [himg, Finset.mem_singleton]
    by_cases hcb : c = b
    · subst hcb
      simp [Img.setUsed, Img.write]
    · simp [Img.setUsed, Img.write, hcb]
  · rw [Finset.mem_singleton] at hc
    subst hc
    exact ⟨t.lt, t.free⟩
  · rw [Finset.mem_singleton] at hc
    subst hc
    rw [hfirst d hd] at hfree
    cases hfree

/-! ### `bmap` -/

theorem addrAlloc_takes (w : fs.Working i) {k : Fin (NDIRECT + 1)} (h : fs.addrAlloc i k = .ok (b, fs')) :
    (fs.imgAt i).ptr (.addr (fs.inode i).inum k) ≠ 0 ∧ fs' = fs ∨
    (fs.imgAt i).ptr (.addr (fs.inode i).inum k) = 0 ∧ Takes fs fs' {b} ∧ Logs fs fs' {fs.sb.bblock b, b} := by
  have hptr : (fs.imgAt i).ptr (.addr (fs.inode i).inum k) = ((fs.inode i).addrs k).toNat := by
    rw [Img.ptr, imgAt, Img.addr_setIno, if_neg w.type]
  rw [addrAlloc] at h
  by_cases hk : (fs.inode i).addrs k = 0
  · simp only [if_pos hk, w.dev] at h
    obtain ⟨⟨b', fs₁⟩, hb, h⟩ := bind_eq_ok.mp h
    cases h
    obtain ⟨htakes, hlogs⟩ := balloc_takes w.super w.meta_used hb
    refine .inr ⟨?_, ⟨htakes.sb, htakes.used, htakes.free, htakes.first⟩, hlogs.of_logged rfl rfl⟩
    rw [hptr, hk]
    rfl
  · simp only [if_neg hk] at h
    cases h
    refine .inl ⟨fun hz => hk (UInt32.toNat_inj.mp (hptr.symm.trans hz)), rfl⟩

/-- What `bmap` logs when the block at place `p` has to be made: the block, the bitmap blocks and the indirect block. -/
structure Made (fs fs' : Fs) (i : InodeIdx) (b bn : Nat) (taken : Finset Nat) : Prop where
  mem : b ∈ taken
  takes : Takes fs fs' taken
  logs : Logs fs fs' ({b} ∪ taken.image fs.sb.bblock ∪
    if bn < NDIRECT then ∅ else {(fs'.imgAt i).ptr (.addr (fs.inode i).inum INDIRECT)})

theorem bmap_made_entry (w : fs.Working i) (hbn : ¬bn < NDIRECT) (hmax : bn < MAXFILE)
    (hlast : (fs.imgAt i).ptr (.addr (fs.inode i).inum INDIRECT) ≠ 0)
    (hptr : (fs.imgAt i).ptr (blockPlace (fs.inode i).inum bn) = 0) (h : fs.bmap i bn = .ok (b, fs')) :
    Made fs fs' i b bn {b} := by
  obtain ⟨hmap, -⟩ := (bmap_spec w hmax (le_refl MAXFILE)).of_eq_ok h
  have hind : bn - NDIRECT < NINDIRECT := by
    simp only [MAXFILE] at hmax
    omega
  have hrange := (w.owned.range _ hlast).1
  have hentry := Img.ptr_entry (g := fs.imgAt i) (i := (fs.inode i).inum) (j := Fin.ofNat NINDIRECT (bn - NDIRECT)) hlast
  rw [← blockPlace_indirect hbn, hptr] at hentry
  have hcode := h
  rw [bmap, if_neg hbn] at hcode
  dsimp only at hcode
  rw [if_pos hind] at hcode
  obtain ⟨⟨a, fs₁⟩, hal, hread⟩ := bind_eq_ok.mp hcode
  obtain ⟨⟨-, haptr, -, -⟩, -, -⟩ := (addrAlloc_spec w INDIRECT).of_eq_ok hal
  rcases addrAlloc_takes w hal with ⟨-, heq⟩ | ⟨hz, -⟩
  · subst heq
    dsimp only at haptr hread
    have hword : ((fs₁.imgAt i).data a).word 4 (4 * (bn - NDIRECT)) = 0 := by
      rw [← haptr]
      have hmod : (Fin.ofNat NINDIRECT (bn - NDIRECT)).val = bn - NDIRECT := Nat.mod_eq_of_lt hind
      rw [hmod] at hentry
      exact hentry.symm
    rw [← haptr, w.bread hlast, ok_bind, haptr, if_pos hword, w.dev] at hread
    obtain ⟨⟨b', fs₂⟩, hb, hpure⟩ := bind_eq_ok.mp hread
    dsimp only at hpure
    generalize Buffer.setWord 4 ((fs₁.imgAt i).data a) (4 * (bn - NDIRECT)) b' = y at hpure
    cases hpure
    obtain ⟨htakes, hlogs⟩ := balloc_takes w.super w.meta_used hb
    have hkept := hmap.grown.kept _ hlast
    dsimp only at hkept
    rw [haptr] at hrange hkept
    have hsuper : fs₂.Super := ((balloc_spec w.super w.meta_used).of_eq_ok hb).super
    have hsame : Takes fs₂ (fs₂.logWrite a y) ∅ := by
      refine .of_eq rfl ?_
      rw [img_logWrite hsuper (htakes.sb ▸ hrange)]
      rfl
    refine ⟨Finset.mem_singleton_self _, ?_, (hlogs.trans (logs_logWrite fs₂ a y)).congr ?_⟩
    · have := htakes.trans hsame
      rwa [Finset.union_empty] at this
    · rw [if_neg hbn, hkept, Finset.image_singleton, Finset.pair_comm]
      rfl
  · exact absurd hz hlast

theorem addrAlloc_old (w : fs.Working i) {k : Fin (NDIRECT + 1)} (hne : (fs.imgAt i).ptr (.addr (fs.inode i).inum k) ≠ 0) :
    fs.addrAlloc i k = .ok ((fs.imgAt i).ptr (.addr (fs.inode i).inum k), fs) := by
  have hptr : (fs.imgAt i).ptr (.addr (fs.inode i).inum k) = ((fs.inode i).addrs k).toNat := by
    rw [Img.ptr, imgAt, Img.addr_setIno, if_neg w.type]
  rw [hptr] at hne ⊢
  have hk : (fs.inode i).addrs k ≠ 0 := fun hz => hne (by rw [hz]; rfl)
  rw [addrAlloc]
  simp only [if_neg hk]

theorem bmap_made (w : fs.Working i) (hmax : bn < MAXFILE) (hptr : (fs.imgAt i).ptr (blockPlace (fs.inode i).inum bn) = 0)
    (h : fs.bmap i bn = .ok (b, fs')) : ∃ taken, Made fs fs' i b bn taken := by
  by_cases hbn : bn < NDIRECT
  · rw [bmap, if_pos hbn] at h
    rw [blockPlace_direct hbn] at hptr
    rcases addrAlloc_takes w h with ⟨hne, -⟩ | ⟨-, htakes, hlogs⟩
    · exact absurd hptr hne
    · refine ⟨{b}, Finset.mem_singleton_self b, htakes, hlogs.congr ?_⟩
      rw [if_pos hbn, Finset.image_singleton, Finset.union_empty, Finset.pair_comm]
      rfl
  · by_cases hlast : (fs.imgAt i).ptr (.addr (fs.inode i).inum INDIRECT) = 0
    · -- The indirect block is made first; then all is as if it had been there.
      have hind : bn - NDIRECT < NINDIRECT := by
        simp only [MAXFILE] at hmax
        omega
      have hcode := h
      rw [bmap, if_neg hbn] at hcode
      dsimp only at hcode
      rw [if_pos hind] at hcode
      obtain ⟨⟨a, fs₁⟩, hal, hrest⟩ := bind_eq_ok.mp hcode
      obtain ⟨hmap, hother, -⟩ := (addrAlloc_spec w INDIRECT).of_eq_ok hal
      have w₁ : fs₁.Working i := hmap.grown.work
      have hinum : (fs₁.inode i).inum = (fs.inode i).inum := hmap.grown.inum
      have ha : (fs₁.imgAt i).ptr (.addr (fs₁.inode i).inum INDIRECT) = a := by
        rw [hinum]
        exact hmap.ptr
      have hane : (fs₁.imgAt i).ptr (.addr (fs₁.inode i).inum INDIRECT) ≠ 0 := ha ▸ hmap.pos
      have hptr₁ : (fs₁.imgAt i).ptr (blockPlace (fs₁.inode i).inum bn) = 0 := by
        rw [hinum]
        exact (hother _ (blockPlace_ne_last _ _ _)).trans hptr
      have h₁ : fs₁.bmap i bn = .ok (b, fs') := by
        rw [bmap, if_neg hbn]
        dsimp only
        rw [if_pos hind, addrAlloc_old w₁ hane, ha]
        exact hrest
      rcases addrAlloc_takes w hal with ⟨hne, -⟩ | ⟨-, htakes, hlogs⟩
      · exact absurd hlast hne
      · have hmade := bmap_made_entry w₁ hbn hmax hane hptr₁ h₁
        have hkept := (((bmap_spec w₁ hmax (le_refl MAXFILE)).of_eq_ok h₁).1.grown.kept _ hane).trans ha
        dsimp only at hkept
        refine ⟨{a} ∪ {b}, Finset.mem_union_right _ (Finset.mem_singleton_self b), htakes.trans hmade.takes,
          (hlogs.trans hmade.logs).congr ?_⟩
        rw [if_neg hbn, if_neg hbn, ← hinum, hkept, Finset.image_union, Finset.image_singleton, Finset.image_singleton, htakes.sb]
        ext c
        simp only [Finset.mem_union, Finset.mem_insert, Finset.mem_singleton, Finset.image_singleton]
        tauto
    · exact ⟨{b}, bmap_made_entry w hbn hmax hlast hptr h⟩

/-! ### The loop of `writei` -/

/-- The blocks of a file that `len` bytes from `off` on lie in. -/
def span (off len : Nat) : Finset Nat := (Finset.Ico off (off + len)).image (· / BSIZE)

theorem span_zero (off : Nat) : span off 0 = ∅ := by
  rw [span, Nat.add_zero, Finset.Ico_self, Finset.image_empty]

theorem span_split {off len m : Nat} (hpos : 0 < m) (hm : m ≤ BSIZE - off % BSIZE) (hlen : m ≤ len) :
    span off len = {off / BSIZE} ∪ span (off + m) (len - m) := by
  have hsplit : Finset.Ico off (off + len) = Finset.Ico off (off + m) ∪ Finset.Ico (off + m) (off + m + (len - m)) := by
    rw [Finset.Ico_union_Ico_eq_Ico (by omega) (by omega)]
    congr 1
    omega
  have hfirst : (Finset.Ico off (off + m)).image (· / BSIZE) = {off / BSIZE} := by
    ext k
    rw [Finset.mem_image, Finset.mem_singleton]
    constructor
    · rintro ⟨p, hp, rfl⟩
      rw [Finset.mem_Ico] at hp
      obtain ⟨q, rfl⟩ := Nat.exists_eq_add_of_le hp.1
      exact (div_mod_add (by omega) hm).1
    · rintro rfl
      exact ⟨off, Finset.mem_Ico.mpr ⟨le_rfl, by omega⟩, rfl⟩
  rw [span, hsplit, Finset.image_union, hfirst]
  rfl

theorem span_lt {off len k : Nat} (hk : k ∈ span off len) (hmax : off + len ≤ MAXFILE * BSIZE) : k < MAXFILE := by
  obtain ⟨p, hp, rfl⟩ := Finset.mem_image.mp hk
  rw [Finset.mem_Ico] at hp
  exact Nat.div_lt_of_lt_mul (by rw [Nat.mul_comm]; omega)

/-- What a write of the blocks `ks` of the file in slot `i` has taken and logged. -/
structure Recorded (fs fs' : Fs) (i : InodeIdx) (ks taken : Finset Nat) : Prop where
  takes : Takes fs fs' taken
  there : ∀ k ∈ ks, (fs'.imgAt i).ptr (blockPlace (fs.inode i).inum k) ≠ 0
  others : ∀ k, k < MAXFILE → k ∉ ks →
    (fs'.imgAt i).ptr (blockPlace (fs.inode i).inum k) = (fs.imgAt i).ptr (blockPlace (fs.inode i).inum k)
  logs : Logs fs fs' ((ks.image fun k => (fs'.imgAt i).ptr (blockPlace (fs.inode i).inum k)) ∪ taken.image fs.sb.bblock ∪
    if ∃ k ∈ ks, NDIRECT ≤ k ∧ (fs.imgAt i).ptr (blockPlace (fs.inode i).inum k) = 0 then
      {(fs'.imgAt i).ptr (.addr (fs.inode i).inum INDIRECT)} else ∅)

theorem Recorded.refl (fs : Fs) (i : InodeIdx) : Recorded fs fs i ∅ ∅ where
  takes := .of_eq rfl rfl
  there k hk := absurd hk (Finset.notMem_empty k)
  others _ _ _ := rfl
  logs := (Logs.of_eq rfl).congr (by simp)

theorem last_ne_zero {g : Img} {j k : Nat} (hk : NDIRECT ≤ k) (h : g.ptr (blockPlace j k) ≠ 0) :
    g.ptr (.addr j INDIRECT) ≠ 0 := by
  rw [blockPlace_indirect (Nat.not_lt.mpr hk)] at h
  exact fun hz => h (Img.ptr_entry_zero hz)

theorem Recorded.trans {ks ks' taken taken' : Finset Nat} (h : Recorded fs fs' i ks taken) (h' : Recorded fs' fs'' i ks' taken')
    (hext : Extends fs fs' i) (hext' : Extends fs' fs'' i) (hks' : ∀ k ∈ ks', k < MAXFILE) :
    Recorded fs fs'' i (ks ∪ ks') (taken ∪ taken') := by
  have hinum := hext.inum
  obtain ⟨htakes', hthere', hothers', hlogs'⟩ := h'
  rw [hinum] at hthere' hothers' hlogs'
  have hkept : ∀ k ∈ ks, (fs''.imgAt i).ptr (blockPlace (fs.inode i).inum k) = (fs'.imgAt i).ptr (blockPlace (fs.inode i).inum k) :=
    fun k hk => hext'.kept _ (h.there k hk)
  refine ⟨h.takes.trans htakes', fun k hk => ?_, fun k hmax hk => ?_, (h.logs.trans hlogs').congr ?_⟩
  · rcases Finset.mem_union.mp hk with hk | hk
    · rw [hkept k hk]
      exact h.there k hk
    · exact hthere' k hk
  · rw [Finset.mem_union, not_or] at hk
    exact (hothers' k hmax hk.2).trans (h.others k hmax hk.1)
  · have himage : (ks.image fun k => (fs'.imgAt i).ptr (blockPlace (fs.inode i).inum k)) =
        ks.image fun k => (fs''.imgAt i).ptr (blockPlace (fs.inode i).inum k) :=
      Finset.image_congr fun k hk => (hkept k hk).symm
    have hlast : (∃ k ∈ ks, NDIRECT ≤ k ∧ (fs.imgAt i).ptr (blockPlace (fs.inode i).inum k) = 0) →
        (fs''.imgAt i).ptr (.addr (fs.inode i).inum INDIRECT) =
          (fs'.imgAt i).ptr (.addr (fs.inode i).inum INDIRECT) := by
      rintro ⟨k, hk, hge, -⟩
      exact hext'.kept _ (last_ne_zero hge (h.there k hk))
    have hor : (∃ k ∈ ks ∪ ks', NDIRECT ≤ k ∧ (fs.imgAt i).ptr (blockPlace (fs.inode i).inum k) = 0) ↔
        (∃ k ∈ ks, NDIRECT ≤ k ∧ (fs.imgAt i).ptr (blockPlace (fs.inode i).inum k) = 0) ∨
          ∃ k ∈ ks', NDIRECT ≤ k ∧ (fs'.imgAt i).ptr (blockPlace (fs.inode i).inum k) = 0 := by
      constructor
      · rintro ⟨k, hk, hge, hz⟩
        by_cases hks : k ∈ ks
        · exact .inl ⟨k, hks, hge, hz⟩
        · have hk' := (Finset.mem_union.mp hk).resolve_left hks
          exact .inr ⟨k, hk', hge, (h.others k (hks' k hk') hks).trans hz⟩
      · rintro (⟨k, hk, hge, hz⟩ | ⟨k, hk, hge, hz⟩)
        · exact ⟨k, Finset.mem_union_left _ hk, hge, hz⟩
        · refine ⟨k, Finset.mem_union_right _ hk, hge, ?_⟩
          by_contra hne
          exact hne ((hext.kept _ hne).symm.trans hz)
    have hindirect : ∀ {P Q : Prop} [Decidable P] [Decidable Q] {c d : Nat}, (P → d = c) →
        (if P then {c} else ∅) ∪ (if Q then {d} else ∅) = (if P ∨ Q then {d} else ∅ : Finset Nat) := by
      intro P Q _ _ c d hcd
      by_cases hP : P
      · rw [if_pos hP, if_pos (Or.inl hP), hcd hP]
        split <;> simp
      · simp [hP]
    rw [himage, hext.sb, Finset.image_union, Finset.image_union, if_congr hor rfl rfl, ← hindirect hlast]
    simp only [Finset.union_assoc, Finset.union_left_comm]

theorem bmap_recorded (w : fs.Working i) (hmax : bn < MAXFILE) (h : fs.bmap i bn = .ok (b, fs')) {x : Block}
    (hsame : ((fs'.logWrite b x).imgAt i).ptr = (fs'.imgAt i).ptr) (hused : (fs'.logWrite b x).img.used = fs'.img.used) :
    ∃ taken, Recorded fs (fs'.logWrite b x) i {bn} taken := by
  obtain ⟨hmap, -⟩ := (bmap_spec w hmax (le_refl MAXFILE)).of_eq_ok h
  have hb : (fs'.imgAt i).ptr (blockPlace (fs.inode i).inum bn) = b := hmap.ptr
  have hthere : ∀ k ∈ ({bn} : Finset Nat), ((fs'.logWrite b x).imgAt i).ptr (blockPlace (fs.inode i).inum k) ≠ 0 := by
    intro k hk
    rw [Finset.mem_singleton.mp hk, hsame, hb]
    exact hmap.pos
  have hothers : ∀ k, k < MAXFILE → k ∉ ({bn} : Finset Nat) →
      ((fs'.logWrite b x).imgAt i).ptr (blockPlace (fs.inode i).inum k) = (fs.imgAt i).ptr (blockPlace (fs.inode i).inum k) := by
    intro k hk hne
    rw [hsame]
    exact (ensures_iff.mp (bmap_others w hmax) _ h).2 k (by simpa using hne) hk
  have hwrite : Takes fs' (fs'.logWrite b x) ∅ := .of_eq rfl hused
  by_cases hptr : (fs.imgAt i).ptr (blockPlace (fs.inode i).inum bn) = 0
  · obtain ⟨taken, hmem, htakes, hlogs⟩ := bmap_made w hmax hptr h
    refine ⟨taken, by simpa using htakes.trans hwrite, hthere, hothers, (hlogs.trans (logs_logWrite fs' b x)).congr ?_⟩
    have hnew : (∃ k ∈ ({bn} : Finset Nat), NDIRECT ≤ k ∧ (fs.imgAt i).ptr (blockPlace (fs.inode i).inum k) = 0) ↔ NDIRECT ≤ bn := by
      simp [hptr]
    rw [hsame, Finset.image_singleton, hb, if_congr hnew rfl rfl]
    by_cases hd : bn < NDIRECT
    · rw [if_pos hd, if_neg (Nat.not_le.mpr hd), Finset.union_empty, Finset.union_comm _ {b}, ← Finset.union_assoc, Finset.union_self]
    · rw [if_neg hd, if_pos (Nat.not_lt.mp hd), Finset.union_comm _ {b}, ← Finset.union_assoc, ← Finset.union_assoc, Finset.union_self]
  · obtain rfl : fs' = fs := hmap.old hptr
    refine ⟨∅, hwrite, hthere, hothers, (logs_logWrite fs' b x).congr ?_⟩
    rw [hsame, Finset.image_singleton, hb]
    simp [hptr]

theorem writeiLoop_recorded {off n : Nat} {src : Nat → UInt8} (w : fs.Working i) (hmax : off + n ≤ MAXFILE * BSIZE) :
    (fs.writeiLoop i src n n off 0).Ensures fun r => ∃ taken, Recorded fs r.2 i (span off n) taken := by
  refine writeiLoop_rounds (R := fun fs fs' off len => ∃ taken, Recorded fs fs' i (span off len) taken)
    (fun fs off => ⟨∅, by rw [span_zero]; exact .refl fs i⟩) ?_ n fs off 0 w (Nat.sub_le _ _) (Nat.zero_le _) hmax
  rintro fs fs₁ fs₂ fs' b off m len hr hm hoff hext ⟨taken', hrec'⟩
  obtain ⟨⟨_, hwrote⟩, hsame⟩ := hr.wrote
  have w₁ := hr.map.grown.work
  have hptr : (fs₁.imgAt i).ptr (blockPlace (fs.inode i).inum (off / BSIZE)) = b := hr.map.ptr
  have hlo : fs₁.sb.nmeta ≤ b := hptr ▸ (w₁.owned.range _ (hptr ▸ hr.map.pos)).1
  obtain ⟨_, rfl⟩ := hr.store
  obtain ⟨taken, hrec⟩ := bmap_recorded hr.work hr.bound hr.bmap hsame (by rw [img_logWrite w₁.super hlo]; rfl)
  rw [span_split hr.pos hr.fits hm]
  exact ⟨taken ∪ taken', hrec.trans hrec' hwrote.toExtends hext fun k hk => span_lt hk (by omega)⟩

/-! ### `writei` -/

theorem Takes.card_add_free {taken : Finset Nat} (h : Takes fs fs' taken) : taken.card + fs'.free = fs.free := by
  have hsplit : (Finset.range fs.sb.size).filter (fun c => fs.img.used c = false) =
      taken ∪ (Finset.range fs.sb.size).filter fun c => fs'.img.used c = false := by
    ext c
    rw [Finset.mem_union, Finset.mem_filter, Finset.mem_filter, Finset.mem_range, ← Bool.not_eq_true, ← Bool.not_eq_true, h.used c]
    by_cases hc : c ∈ taken
    · have hfree := h.free c hc
      simp [hc, hfree]
    · simp [hc]
  have hdisj : Disjoint taken ((Finset.range fs.sb.size).filter fun c => fs'.img.used c = false) := by
    rw [Finset.disjoint_left]
    intro c hc hmem
    rw [Finset.mem_filter, (h.used c).mpr (.inr hc)] at hmem
    cases hmem.2
  rw [Fs.free, Fs.free, freeCount, freeCount, hsplit, Finset.card_union_of_disjoint hdisj, h.sb]

theorem logs_iupdate (h : fs.iupdate i = .ok fs') : Logs fs fs' {fs.sb.iblock (fs.inode i).inum} := by
  obtain ⟨x, -, h⟩ := bind_eq_ok.mp h
  cases h
  exact logs_logWrite _ _ _

variable {devsw : DevSw} {src : Nat → UInt8} {off n : UInt32} {r : Int}

/-- The number of blocks that a write of `n` bytes at `off` gives to the log: those of the data, the bitmap blocks of the
    blocks that it takes, the indirect block if there is a new entry in it, and the inode if the file grows. -/
def writeBlocks (fs : Fs) (i : InodeIdx) (off n : Nat) : Nat :=
  (span off n).card +
  ((firstFree fs.sb.size fs.img.used (fs.img.lacking (fs.inode i).inum (blocks (off + n)))).image fs.sb.bblock).card +
  (if ∃ k ∈ span off n, NDIRECT ≤ k ∧ fs.img.ptr (blockPlace (fs.inode i).inum k) = 0 then 1 else 0) +
  if (fs.inode i).size.toNat < off + n then 1 else 0

theorem writei_recorded (wf : fs.Wf) (hl : fs.Locked i) (htype : (fs.inode i).type.toNat ≠ T_DEV)
    (hacc : ¬Rejects (fs.inode i).size.toNat off.toNat n.toNat) (h : fs.writei devsw i src off n = .ok (r, fs')) :
    ∃ fs₁ taken, Recorded fs fs₁ i (span off.toNat n.toNat) taken ∧ Wrote fs fs₁ i off.toNat n.toNat src ∧
      taken.card = fs.img.lacking (fs.inode i).inum (blocks (off.toNat + n.toNat)) ∧
      Logs fs₁ fs' (if (fs.inode i).size.toNat < off.toNat + n.toNat then {fs.sb.iblock (fs.inode i).inum} else ∅) := by
  have hbound := hacc
  simp only [Rejects, not_or, not_lt, not_le] at hbound
  obtain ⟨hoff, -, hmax⟩ := hbound
  have w := wf.working hl
  rw [writei_accept htype hacc] at h
  obtain ⟨⟨off', fs₁⟩, hloop, hend⟩ := bind_eq_ok.mp h
  have hspec := (writeiLoop_spec (blocks_le hmax) n.toNat fs off.toNat 0 w (Nat.sub_le _ _) (Nat.zero_le _) (le_blocks _)).of_eq_ok hloop
  obtain ⟨taken, hrec⟩ := (writeiLoop_recorded w hmax).of_eq_ok hloop
  simp only [Nat.sub_zero, Nat.zero_add] at hspec hrec
  obtain ⟨rfl, hw, hfree⟩ := hspec
  have hcard := hrec.takes.card_add_free
  rw [hw.lacking_zero wf hl htype hoff, wf.imgAt_eq hl] at hfree
  have hsize : (fs₁.inode i).size = (fs.inode i).size := by rw [hw.slot]
  refine ⟨fs₁, taken, hrec, hw, by omega, ?_⟩
  dsimp only at hend
  rw [hsize] at hend
  split at hend
  · rename_i hgrow
    obtain ⟨fs₂, hup, hpure⟩ := bind_eq_ok.mp hend
    cases hpure
    rw [if_pos hgrow.2]
    have hlogs := logs_iupdate hup
    have hinum : ((fs₁.setInode i { fs₁.inode i with size := .ofNat (off.toNat + n.toNat) }).inode i).inum = (fs.inode i).inum := by
      rw [← hw.inum]
      simp [setInode]
    have hsb : (fs₁.setInode i { fs₁.inode i with size := .ofNat (off.toNat + n.toNat) }).sb = fs.sb := hw.sb
    rw [hinum, hsb] at hlogs
    exact hlogs.of_logged rfl rfl
  · rename_i hgrow
    cases hend
    rw [if_neg]
    · exact .of_eq rfl
    · intro hlt
      refine hgrow ⟨UInt32.lt_iff_toNat_lt.mpr ?_, hlt⟩
      rw [UInt32.toNat_zero]
      omega

theorem Recorded.card {ks taken : Finset Nat} {fs₁ : Fs} (h : Recorded fs fs₁ i ks taken) (hext : Extends fs fs₁ i) (w : fs.Working i)
    (hks : ∀ k ∈ ks, k < MAXFILE) (grows : Prop) [Decidable grows] :
    (((ks.image fun k => (fs₁.imgAt i).ptr (blockPlace (fs.inode i).inum k)) ∪ taken.image fs.sb.bblock ∪
      if ∃ k ∈ ks, NDIRECT ≤ k ∧ (fs.imgAt i).ptr (blockPlace (fs.inode i).inum k) = 0 then
        {(fs₁.imgAt i).ptr (.addr (fs.inode i).inum INDIRECT)} else ∅) ∪
      if grows then {fs.sb.iblock (fs.inode i).inum} else ∅).card =
    ks.card + (taken.image fs.sb.bblock).card +
      (if ∃ k ∈ ks, NDIRECT ≤ k ∧ (fs.imgAt i).ptr (blockPlace (fs.inode i).inum k) = 0 then 1 else 0) + if grows then 1 else 0 := by
  have w₁ := hext.work
  have howned := w₁.owned
  rw [hext.sb] at howned
  -- Data blocks lie behind the blocks of the bitmap.
  have hdata : ∀ p, (fs₁.imgAt i).ptr p ≠ 0 → fs.sb.nmeta ≤ (fs₁.imgAt i).ptr p := fun p hp => (howned.range p hp).1
  have hbitmap : ∀ b ∈ taken.image fs.sb.bblock, fs.sb.bmapstart ≤ b ∧ b < fs.sb.nmeta := by
    intro b hb
    obtain ⟨c, hc, rfl⟩ := Finset.mem_image.mp hb
    exact Superblock.bblock_lt (h.takes.free c hc).1
  have hinode := w.super.ok.iblock_lt w.inum
  have hmeta := w.super.ok.bmapstart_lt
  have hfile : ∀ b ∈ ks.image (fun k => (fs₁.imgAt i).ptr (blockPlace (fs.inode i).inum k)), fs.sb.nmeta ≤ b ∧
      b ≠ (fs₁.imgAt i).ptr (.addr (fs.inode i).inum INDIRECT) := by
    intro b hb
    obtain ⟨k, hk, rfl⟩ := Finset.mem_image.mp hb
    exact ⟨hdata _ (h.there k hk), fun heq => blockPlace_ne_last _ _ _ (howned.inj _ _ (h.there k hk) heq)⟩
  have hindirect : ∀ b ∈ (if ∃ k ∈ ks, NDIRECT ≤ k ∧ (fs.imgAt i).ptr (blockPlace (fs.inode i).inum k) = 0 then
      {(fs₁.imgAt i).ptr (.addr (fs.inode i).inum INDIRECT)} else ∅ : Finset Nat),
      b = (fs₁.imgAt i).ptr (.addr (fs.inode i).inum INDIRECT) ∧ fs.sb.nmeta ≤ b := by
    intro b hb
    split at hb
    · rename_i hex
      obtain ⟨k, hk, hge, -⟩ := hex
      obtain rfl := Finset.mem_singleton.mp hb
      exact ⟨rfl, hdata _ (last_ne_zero hge (h.there k hk))⟩
    · exact absurd hb (Finset.notMem_empty b)
  have hino : ∀ b ∈ (if grows then {fs.sb.iblock (fs.inode i).inum} else ∅ : Finset Nat), b < fs.sb.bmapstart := by
    intro b hb
    split at hb
    · obtain rfl := Finset.mem_singleton.mp hb
      exact hinode.2
    · exact absurd hb (Finset.notMem_empty b)
  have hinj : Set.InjOn (fun k => (fs₁.imgAt i).ptr (blockPlace (fs.inode i).inum k)) ks := fun k hk k' hk' heq =>
    (blockPlace_inj (hks k hk) (hks k' hk') (howned.inj _ _ (h.there k hk) heq)).2
  rw [Finset.card_union_of_disjoint, Finset.card_union_of_disjoint, Finset.card_union_of_disjoint, Finset.card_image_of_injOn hinj]
  · congr 1
    · congr 1
      split <;> rfl
    · split <;> rfl
  · rw [Finset.disjoint_left]
    intro b hb hb'
    have := (hfile b hb).1
    have := (hbitmap b hb').2
    omega
  · rw [Finset.disjoint_left]
    intro b hb hb'
    obtain ⟨heq, hge⟩ := hindirect b hb'
    rcases Finset.mem_union.mp hb with hb | hb
    · exact (hfile b hb).2 heq
    · have := (hbitmap b hb).2
      omega
  · rw [Finset.disjoint_right]
    intro b hb hb'
    have hlt := hino b hb
    rcases Finset.mem_union.mp hb' with hb' | hb'
    · rcases Finset.mem_union.mp hb' with hb' | hb'
      · have := (hfile b hb').1
        omega
      · have := (hbitmap b hb').1
        omega
    · have := (hindirect b hb').2
      omega

theorem writei_logs (wf : fs.Wf) (hl : fs.Locked i) (htype : (fs.inode i).type.toNat ≠ T_DEV)
    (hacc : ¬Rejects (fs.inode i).size.toNat off.toNat n.toNat) (h : fs.writei devsw i src off n = .ok (r, fs')) :
    ∃ S, Logs fs fs' S ∧ S.card = fs.writeBlocks i off.toNat n.toNat := by
  obtain ⟨fs₁, taken, hrec, hw, hcard, hlogs⟩ := writei_recorded wf hl htype hacc h
  simp only [Rejects, not_or, not_lt, not_le] at hacc
  have hcount := hrec.card hw.toExtends (wf.working hl) (fun k hk => span_lt hk hacc.2.2)
    ((fs.inode i).size.toNat < off.toNat + n.toNat)
  refine ⟨_, hrec.logs.trans hlogs, hcount.trans ?_⟩
  rw [writeBlocks, wf.imgAt_eq hl, ← hcard, ← hrec.takes.eq_firstFree]

end Fs
end Xv6
