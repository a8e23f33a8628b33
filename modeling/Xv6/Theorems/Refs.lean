import Xv6.Path
import Xv6.Theorems.FsRuns

/-! The references to inodes and the locks on them that kernel code takes and gives back, in any state of the disk, and with
    what messages it can panic when a path is looked up and a file is read. -/

namespace Xv6
open Bytes

namespace Fs
variable {fs fs' fs₀ : Fs} {i : InodeIdx} {devsw : DevSw}

/-! ### Panics -/

def panics : List String :=
  ["iderw: request not for disk 1", "iderw: block out of range", "balloc: out of blocks", "freeing free block",
    "iget: no inodes", "ilock", "ilock: no type", "iunlock", "bmap: out of range", "iput busy", "dirlink read", "dirlookup not DIR"]

/-- A panic with one of these messages, or to sleep. -/
def Panics (o : Option String) : Prop := ∀ msg, o = some msg → msg ∈ panics

/-- Nothing else can happen than a value with the property or that. -/
abbrev Yields {α : Type} (x : Outcome α) (post : α → Prop) : Prop := x.Spec post Panics

theorem Yields.panic {α : Type} {post : α → Prop} {msg : String} (h : msg ∈ panics) : Yields (.panic msg) post :=
  fun _ heq => Option.some.inj heq ▸ h

theorem Yields.sleep {α : Type} {post : α → Prop} : Yields .sleep post := fun _ heq => nomatch heq

theorem Yields.mono {α : Type} {x : Outcome α} {post post' : α → Prop} (h : Yields x post) (hpost : ∀ a, post a → post' a) :
    Yields x post' := Outcome.Spec.mono h hpost fun _ h => h

theorem Yields.bind {α β : Type} {x : Outcome α} {f : α → Outcome β} {post : α → Prop} {post' : β → Prop} (h : Yields x post)
    (hf : ∀ a, post a → Yields (f a) post') : Yields (x >>= f) post' := Outcome.Spec.bind h hf

theorem bread_yields (fs : Fs) (dev b : Nat) : Yields (fs.bread dev b) fun _ => True := by
  unfold bread
  split
  · exact .panic (by decide)
  · split
    · exact .panic (by decide)
    · trivial

/-! ### Code that takes and gives back nothing -/

def SameHolds (fs fs' : Fs) : Prop := ∀ j, (fs'.inode j).ref = (fs.inode j).ref ∧ (fs'.inode j).busy = (fs.inode j).busy

/-- The slots of the cache are what they were, but for the type, the size and the blocks of the inodes. -/
def SameCache (fs fs' : Fs) : Prop :=
  ∀ j, ∃ type size addrs, fs'.inode j = { fs.inode j with type := type, size := size, addrs := addrs }

theorem SameCache.refl (fs : Fs) : SameCache fs fs := fun _ => ⟨_, _, _, rfl⟩

theorem SameCache.trans {fs'' : Fs} (h : SameCache fs fs') (h' : SameCache fs' fs'') : SameCache fs fs'' := fun j => by
  obtain ⟨_, _, _, heq⟩ := h j
  obtain ⟨_, _, _, heq'⟩ := h' j
  exact ⟨_, _, _, by rw [heq', heq]⟩

theorem SameCache.of_inode (h : fs'.inode = fs.inode) : SameCache fs fs' := fun j => ⟨_, _, _, by rw [h]⟩

theorem SameCache.holds (h : SameCache fs fs') : SameHolds fs fs' := fun j => by
  obtain ⟨_, _, _, heq⟩ := h j
  rw [heq]
  exact ⟨rfl, rfl⟩

theorem SameCache.setInode {type : UInt16} {size : UInt32} {addrs} :
    SameCache fs (fs.setInode i { fs.inode i with type := type, size := size, addrs := addrs }) := fun j => by
  by_cases hj : j = i
  · subst hj
    exact ⟨_, _, _, inode_setInode_self ..⟩
  · exact ⟨_, _, _, inode_setInode_of_ne fs hj _⟩

theorem bzero_cache (fs : Fs) (dev b : Nat) : Yields (fs.bzero dev b) (SameCache fs) :=
  (bread_yields _ _ _).bind fun _ _ => SameCache.of_inode rfl

theorem ballocFrom_cache (fs : Fs) (dev : Nat) : ∀ left b : Nat, Yields (fs.ballocFrom dev left b) fun r => SameCache fs r.2
  | 0, _ => .panic (by decide)
  | left + 1, b => by
    rw [ballocFrom]
    split
    · refine (bread_yields _ _ _).bind fun x _ => ?_
      split
      · refine (bzero_cache _ dev _).bind fun fs' h => ?_
        exact (SameCache.of_inode rfl).trans h
      · exact ballocFrom_cache fs dev left _
    · exact .panic (by decide)

theorem bfree_cache (fs : Fs) (dev b : Nat) : Yields (fs.bfree dev b) (SameCache fs) := by
  rw [bfree]
  have hsb : Yields (fs.readsb dev) fun _ => True := (bread_yields fs dev 1).bind fun _ _ => trivial
  refine hsb.bind fun sb _ => (bread_yields _ _ _).bind fun x _ => ?_
  dsimp only
  split
  · exact .panic (by decide)
  · exact SameCache.of_inode rfl

theorem iupdate_cache (fs : Fs) (i : InodeIdx) : Yields (fs.iupdate i) (SameCache fs) :=
  (bread_yields _ _ _).bind fun _ _ => SameCache.of_inode rfl

theorem addrAlloc_cache (fs : Fs) (i : InodeIdx) (k : Fin (NDIRECT + 1)) :
    Yields (fs.addrAlloc i k) fun r => SameCache fs r.2 := by
  rw [addrAlloc]
  split
  · refine (ballocFrom_cache fs _ _ 0).bind fun r h => ?_
    exact h.trans .setInode
  · exact SameCache.refl fs

theorem bmap_cache (fs : Fs) (i : InodeIdx) (bn : Nat) : Yields (fs.bmap i bn) fun r => SameCache fs r.2 := by
  rw [bmap]
  split
  · exact addrAlloc_cache fs i _
  · dsimp only
    split
    · refine (addrAlloc_cache fs i _).bind fun r h => ?_
      refine (bread_yields _ _ _).bind fun x _ => ?_
      split
      · refine (ballocFrom_cache _ _ _ 0).bind fun r' h' => ?_
        exact (h.trans h').trans (.of_inode rfl)
      · exact h
    · exact .panic (by decide)

theorem readiLoop_cache (i : InodeIdx) (n : Nat) : ∀ (left : Nat) (fs : Fs) (off tot : Nat),
    Yields (fs.readiLoop i n left off tot) fun r => SameCache fs r.2
  | 0, fs, _, _ => SameCache.refl fs
  | left + 1, fs, off, tot => by
    rw [readiLoop]
    split
    · refine (bmap_cache fs i _).bind fun r h => ?_
      refine (bread_yields _ _ _).bind fun x _ => ?_
      refine (readiLoop_cache i n left r.2 _ _).bind fun r' h' => ?_
      exact h.trans h'
    · exact SameCache.refl fs

theorem readi_cache (devsw : DevSw) (fs : Fs) (i : InodeIdx) (off n : UInt32) :
    Yields (fs.readi devsw i off n) fun r => SameCache fs r.2.2 := by
  rw [readi]
  dsimp only
  split
  · split
    · exact SameCache.refl fs
    · split <;> exact SameCache.refl fs
  · split
    · exact SameCache.refl fs
    · exact (readiLoop_cache i _ _ fs _ _).bind fun r h => h

theorem readi_holds (devsw : DevSw) (fs : Fs) (i : InodeIdx) (off n : UInt32) :
    Yields (fs.readi devsw i off n) fun r => SameHolds fs r.2.2 := (readi_cache devsw fs i off n).mono fun _ h => h.holds

/-- The states that reading from the inode can lead to. -/
def Reads (devsw : DevSw) (i : InodeIdx) : Fs → Fs → Prop :=
  Relation.ReflTransGen fun fs fs' => ∃ off n r bs, fs.readi devsw i off n = .ok (r, bs, fs')

theorem readi_reads (devsw : DevSw) (fs : Fs) (i : InodeIdx) (off n : UInt32) :
    (fs.readi devsw i off n).Ensures fun r => Reads devsw i fs r.2.2 :=
  Outcome.ensures_iff.mpr fun _ h => .single ⟨_, _, _, _, h⟩

theorem Reads.cache (h : Reads devsw i fs fs') : SameCache fs fs' := by
  induction h with
  | refl => exact .refl fs
  | tail _ hstep ih =>
    obtain ⟨off, n, r, bs, hread⟩ := hstep
    exact ih.trans ((readi_cache devsw _ i off n).of_eq_ok hread)

theorem Reads.holds (h : Reads devsw i fs fs') : SameHolds fs fs' := h.cache.holds

theorem itruncDirect_cache (i : InodeIdx) : ∀ (ks : List (Fin NDIRECT)) (fs : Fs), Yields (fs.itruncDirect i ks) (SameCache fs)
  | [], fs => SameCache.refl fs
  | k :: ks, fs => by
    rw [itruncDirect]
    split
    · exact itruncDirect_cache i ks fs
    · refine (bfree_cache fs _ _).bind fun fs₁ h => ?_
      have hset : SameCache fs₁ (fs₁.setAddr i k.castSucc 0) := .setInode
      exact (itruncDirect_cache i ks _).mono fun fs₂ h' => (h.trans hset).trans h'

theorem itruncIndirect_cache (dev : Nat) (x : Block) : ∀ (js : List Nat) (fs : Fs),
    Yields (fs.itruncIndirect dev x js) (SameCache fs)
  | [], fs => SameCache.refl fs
  | j :: js, fs => by
    rw [itruncIndirect]
    split
    · exact itruncIndirect_cache dev x js fs
    · refine (bfree_cache fs _ _).bind fun fs₁ h => ?_
      exact (itruncIndirect_cache dev x js fs₁).mono fun fs₂ h' => h.trans h'

theorem itrunc_cache (fs : Fs) (i : InodeIdx) : Yields (fs.itrunc i) (SameCache fs) := by
  have hlast : ∀ {fs₁}, SameCache fs fs₁ →
      Yields ((fs₁.setInode i { fs₁.inode i with size := 0 }).iupdate i) (SameCache fs) := fun {fs₁} h₁ => by
    have hset : SameCache fs₁ (fs₁.setInode i { fs₁.inode i with size := 0 }) := .setInode
    exact (iupdate_cache _ i).mono fun fs₂ h₂ => (h₁.trans hset).trans h₂
  rw [itrunc]
  refine (itruncDirect_cache i _ fs).bind fun fs₁ h₁ => ?_
  dsimp only
  split
  · exact hlast h₁
  · refine (bread_yields _ _ _).bind fun x _ => ?_
    refine (itruncIndirect_cache _ x _ fs₁).bind fun fs₂ h₂ => ?_
    refine (bfree_cache fs₂ _ _).bind fun fs₃ h₃ => ?_
    exact hlast (((h₁.trans h₂).trans h₃).trans .setInode)

/-! ### Taking and giving back -/

/-- Since `fs₀` the references in `refs` were taken, and of the locks at most those in `locks`. -/
structure Holding (fs₀ fs : Fs) (refs locks : List InodeIdx) : Prop where
  ref : ∀ j, (fs.inode j).ref = (fs₀.inode j).ref + refs.count j
  busy : ∀ j, (fs.inode j).busy = true → (fs₀.inode j).busy = true ∨ j ∈ locks

variable {refs locks : List InodeIdx}

theorem Holding.start (fs : Fs) : Holding fs fs [] [] := ⟨fun _ => rfl, fun _ => Or.inl⟩

section
variable (h : Holding fs₀ fs refs locks)
include h

theorem Holding.same (hs : SameHolds fs fs') : Holding fs₀ fs' refs locks :=
  ⟨fun j => by rw [(hs j).1, h.ref], fun j hj => h.busy j (by rw [← (hs j).2]; exact hj)⟩

theorem Holding.perm {refs' : List InodeIdx} (hp : refs.Perm refs') :
    Holding fs₀ fs refs' locks := ⟨fun j => by rw [h.ref, hp.count_eq], h.busy⟩

theorem Holding.setInode {refs' locks' : List InodeIdx} {ip : Inode}
    (href : ip.ref = (fs₀.inode i).ref + refs'.count i) (hrefs : ∀ j, j ≠ i → refs'.count j = refs.count j)
    (hbusy : ip.busy = true → (fs₀.inode i).busy = true ∨ i ∈ locks') (hlocks : ∀ j, j ≠ i → j ∈ locks → j ∈ locks') :
    Holding fs₀ (fs.setInode i ip) refs' locks' := by
  refine ⟨fun j => ?_, fun j hj => ?_⟩
  · by_cases hji : j = i
    · subst hji
      rw [inode_setInode_self, href]
    · rw [inode_setInode_of_ne fs hji, h.ref, hrefs j hji]
  · by_cases hji : j = i
    · subst hji
      rw [inode_setInode_self] at hj
      exact hbusy hj
    · rw [inode_setInode_of_ne fs hji] at hj
      exact (h.busy j hj).imp_right (hlocks j hji)

theorem Holding.take {ip : Inode} (href : ip.ref = (fs.inode i).ref + 1)
    (hbusy : ip.busy = true → (fs.inode i).busy = true) : Holding fs₀ (fs.setInode i ip) (i :: refs) locks :=
  h.setInode (by rw [href, h.ref, List.count_cons_self]; rfl) (fun _ hj => List.count_cons_of_ne (Ne.symm hj))
    (fun hb => h.busy i (hbusy hb)) fun _ _ => id

theorem Holding.iget (dev inum : Nat) :
    Yields (fs.iget dev inum) fun r => Holding fs₀ r.2 (r.1 :: refs) locks :=
  (iget_spec fs dev inum).mono (fun r hr => by
    cases hr with
    | hit i _ _ _ => exact h.take rfl id
    | fresh i hfree _ => exact h.take (by rw [hfree]) fun hbusy => nomatch hbusy) fun o ho _ heq => by
      obtain rfl := Option.some.inj (ho.symm.trans heq)
      decide

theorem Holding.idup (i : InodeIdx) : Holding fs₀ (fs.idup i) (i :: refs) locks :=
  h.take rfl id

theorem Holding.lock {ip : Inode} (href : ip.ref = (fs.inode i).ref) :
    Holding fs₀ (fs.setInode i ip) refs (i :: locks) :=
  h.setInode (by rw [href, h.ref]) (fun _ _ => rfl) (fun _ => Or.inr List.mem_cons_self) fun _ _ => List.mem_cons_of_mem i

theorem Holding.ilock (i : InodeIdx) :
    Yields (fs.ilock i) fun fs' => Holding fs₀ fs' refs (i :: locks) := by
  rw [Fs.ilock]
  dsimp only
  split
  · exact .panic (by decide)
  · split
    · exact .sleep
    · split
      · exact h.lock rfl
      · refine (bread_yields _ _ _).bind fun x _ => ?_
        split
        · exact .panic (by decide)
        · exact h.lock rfl

end

theorem Holding.iunlock (h : Holding fs₀ fs refs (i :: locks)) :
    Yields (fs.iunlock i) fun fs' => Holding fs₀ fs' refs locks := by
  rw [Fs.iunlock]
  split
  · exact .panic (by decide)
  · exact h.setInode (h.ref i) (fun _ _ => rfl) (fun hb => by cases hb) fun j hj hmem =>
      (List.mem_cons.mp hmem).resolve_left hj

theorem Holding.drop {locks' : List InodeIdx} {ip : Inode} (h : Holding fs₀ fs (i :: refs) locks)
    (href : ip.ref = (fs.inode i).ref - 1) (hbusy : ip.busy = true → (fs₀.inode i).busy = true ∨ i ∈ locks')
    (hlocks : ∀ j, j ≠ i → j ∈ locks → j ∈ locks') : Holding fs₀ (fs.setInode i ip) refs locks' :=
  h.setInode (by rw [href, h.ref, List.count_cons_self]; rfl) (fun _ hj => (List.count_cons_of_ne (Ne.symm hj)).symm)
    hbusy hlocks

/-- One reference is dropped. The other slots keep theirs, even if the inode is freed. -/
theorem iput_yields (fs : Fs) (i : InodeIdx) : Yields (fs.iput i) fun fs' => ∃ fs₁ x, SameCache fs fs₁ ∧
    fs' = fs₁.setInode i x ∧ x.ref = (fs.inode i).ref - 1 ∧ (x.busy = true → (fs.inode i).busy = true) := by
  rw [Fs.iput]
  dsimp only
  split
  · split
    · exact .panic (by decide)
    · -- The inode is locked, freed and unlocked.
      refine (itrunc_cache _ i).bind fun fs₁ h₁ => ?_
      refine (iupdate_cache _ i).bind fun fs₂ h₂ => ?_
      have hsame := (h₁.trans .setInode).trans h₂
      have href := (hsame.holds i).1
      rw [inode_setInode_self] at href
      refine ⟨fs₂.setInode i (fs.inode i), { fs₂.inode i with ref := (fs₂.inode i).ref - 1, busy := false, valid := false },
        fun j => ?_, by simp only [setInode_setInode, inode_setInode_self], congrArg (· - 1) href, fun hb => by cases hb⟩
      by_cases hj : j = i
      · subst hj
        exact ⟨_, _, _, inode_setInode_self ..⟩
      · obtain ⟨_, _, _, heq⟩ := hsame j
        rw [inode_setInode_of_ne fs hj] at heq
        exact ⟨_, _, _, (inode_setInode_of_ne fs₂ hj _).trans heq⟩
  · exact ⟨fs, _, .refl fs, rfl, rfl, id⟩

theorem Holding.iput (h : Holding fs₀ fs (i :: refs) locks) : Yields (fs.iput i) fun fs' => Holding fs₀ fs' refs locks :=
  (iput_yields fs i).mono fun fs' hput => by
    obtain ⟨fs₁, x, hsame, rfl, href, hbusy⟩ := hput
    exact (h.same hsame.holds).drop (by rw [href, (hsame.holds i).1]) (fun hb => h.busy i (hbusy hb)) fun _ _ => id

theorem Holding.iunlockput (h : Holding fs₀ fs (i :: refs) (i :: locks)) :
    Yields (fs.iunlockput i) fun fs' => Holding fs₀ fs' refs locks :=
  h.iunlock.bind fun _ h => h.iput

theorem iunlockput_yields (fs : Fs) (i : InodeIdx) : Yields (fs.iunlockput i) fun _ => True := by
  rw [Fs.iunlockput, Fs.iunlock]
  split
  · exact .panic (by decide)
  · exact (iput_yields _ i).mono fun _ _ => trivial

/-! ### Path names -/

theorem Holding.dirlookup (h : Holding fs₀ fs refs locks) (dp : InodeIdx) (name : Nat → UInt8) :
    Yields (fs.dirlookup devsw dp name) fun r =>
      Holding fs₀ r.2 ((r.1.map Prod.fst).toList ++ refs) locks := by
  have hloop : ∀ (left : Nat) {fs : Fs} (off : Nat), Holding fs₀ fs refs locks →
      Yields (fs.dirlookupFrom devsw dp name left off) fun r =>
        Holding fs₀ r.2 ((r.1.map Prod.fst).toList ++ refs) locks := by
    intro left
    induction left with
    | zero => exact fun _ h => h
    | succ left ih =>
      intro fs off h
      rw [dirlookupFrom]
      split
      · refine (readi_holds devsw fs dp _ _).bind fun r hr => ?_
        dsimp only
        split
        · exact .panic (by decide)
        · split
          · exact ((h.same hr).iget _ _).bind fun r' hr' => hr'
          · exact ih _ (h.same hr)
      · exact h
  rw [Fs.dirlookup]
  split
  · exact .panic (by decide)
  · exact hloop _ 0 h

theorem Holding.namexFrom {nameiparent : Bool} : ∀ (left : Nat) {fs : Fs} {ip : InodeIdx} (path name : List UInt8),
    Holding fs₀ fs (ip :: refs) locks → Yields (namexFrom devsw nameiparent left fs ip path name) fun r =>
      Holding fs₀ r.2.2 (r.1.toList ++ refs) locks := by
  have hleave : ∀ {fs : Fs} {ip : InodeIdx} (name : List UInt8), Holding fs₀ fs (ip :: refs) locks →
      Yields (namexFrom.leave nameiparent fs ip name) fun r => Holding fs₀ r.2.2 (r.1.toList ++ refs) locks :=
    fun name h => by
      rw [namexFrom.leave]
      split
      · exact h.iput.bind fun _ h => h
      · exact h
  intro left
  induction left with
  | zero => exact fun path name h => hleave name h
  | succ left ih =>
    intro fs ip path name h
    rw [Fs.namexFrom]
    split
    · exact hleave name h
    · refine (h.ilock ip).bind fun fs₁ h₁ => ?_
      split
      · exact h₁.iunlockput.bind fun _ h => h
      · split
        · exact h₁.iunlock.bind fun _ h => h
        · refine (h₁.dirlookup ip _).bind fun r hr => ?_
          obtain ⟨next, fs₂⟩ := r
          cases next with
          | none => exact hr.iunlockput.bind fun _ h => h
          | some next =>
            have hswap : Holding fs₀ fs₂ (ip :: next.1 :: refs) (ip :: locks) := hr.perm (.swap _ _ _)
            exact hswap.iunlockput.bind fun _ h => ih _ _ h

theorem namex_holding (devsw : DevSw) (fs : Fs) (cwd : Option InodeIdx) (path : List UInt8) (nameiparent : Bool) :
    (fs.namex devsw cwd path nameiparent).Spec (fun r => Holding fs r.2.2 r.1.toList [])
      fun o => (path.head? ≠ some SLASH → cwd ≠ none) → Panics o := by
  have hwalk : ∀ {fs₁ : Fs} {ip : InodeIdx}, Holding fs fs₁ [ip] [] →
      Yields (namexFrom devsw nameiparent path.length fs₁ ip path []) fun r => Holding fs r.2.2 r.1.toList [] := fun h =>
    (h.namexFrom path.length path []).mono fun r hr => by simpa using hr
  unfold namex
  split
  · exact Outcome.Spec.mono (((Holding.start fs).iget _ _).bind fun r hr => hwalk hr) (fun _ h => h) fun _ h _ => h
  · split
    · exact fun hcwd => absurd rfl (hcwd ‹_›)
    · rename_i cwd
      exact Outcome.Spec.mono (hwalk ((Holding.start fs).idup cwd)) (fun _ h => h) fun _ h _ => h

theorem namei_holding (devsw : DevSw) (fs : Fs) (cwd : Option InodeIdx) (path : List UInt8) :
    (fs.namei devsw cwd path).Spec (fun r => Holding fs r.2 r.1.toList [])
      fun o => (path.head? ≠ some SLASH → cwd ≠ none) → Panics o :=
  (namex_holding devsw fs cwd path false).bind fun _ hr => hr

end Fs
end Xv6
