import Xv6.Bcache
import Xv6.Theorems.Bio

/-! The buffer cache is transparent: its pointers always spell the list of `Store`, and what `bread` returns is what was
    last given to the block. -/

namespace Xv6
open Function (update update_eq_self update_of_ne update_self)
open Outcome (bind_eq_ok)
open Machine

namespace Store

theorem iderw_lru (st : Store) (l : List BufIdx) (i : BufIdx) :
    ({ st with lru := l } : Store).iderw i = st.iderw i >>= fun st' => .ok { st' with lru := l } := by
  unfold iderw
  dsimp only
  split_ifs <;> rfl

theorem iderw_keeps {st st' : Store} {i : BufIdx} (h : st.iderw i = .ok st') : st'.lru = st.lru ∧ st'.disksize = st.disksize := by
  unfold iderw at h
  dsimp only at h
  split_ifs at h
  all_goals
    cases h
    exact ⟨rfl, rfl⟩

end Store

namespace Bcache
variable {c c' : Bcache} {st st' : Store} {dev b : Nat} {i j : BufIdx}

/-! ### The list -/

/-- The cache with its list in place of the pointers. -/
structure Rep (c : Bcache) (st : Store) : Prop where
  disk : st.disk = c.disk
  disksize : st.disksize = c.disksize
  buf : st.buf = c.buf
  spells : c.links.Spells st.lru
  nodup : st.lru.Nodup
  mem : ∀ i, i ∈ st.lru

theorem foldl_push : ∀ (is : List BufIdx) {L : Links BufIdx} {l : List BufIdx}, L.Spells l → (is.reverse ++ l).Nodup →
    (is.foldl Links.push L).Spells (is.reverse ++ l)
  | [], _, _, h, _ => h
  | i :: is, L, l, h, hl => by
    rw [List.reverse_cons, List.append_assoc, List.singleton_append] at hl ⊢
    have htail := (List.nodup_append'.mp hl).2.1
    obtain ⟨hi, hl'⟩ := List.nodup_cons.mp htail
    exact foldl_push is (h.push hi hl') hl

theorem rep_binit (disk : Nat → Block) (disksize : Nat) : (binit disk disksize).Rep (.binit disk disksize) where
  disk := rfl
  disksize := rfl
  buf := rfl
  spells := by
    have h := foldl_push (List.finRange NBUF) Links.spells_empty
      (by rw [List.append_nil, List.nodup_reverse]; exact List.nodup_finRange NBUF)
    rwa [List.append_nil] at h
  nodup := List.nodup_reverse.mpr (List.nodup_finRange NBUF)
  mem := fun i => List.mem_reverse.mpr (List.mem_finRange i)

theorem Rep.length (h : c.Rep st) : st.lru.length ≤ NBUF := by
  simpa using h.nodup.length_le_card

theorem Rep.setBuf (h : c.Rep st) (i : BufIdx) (x : Buf) : (c.setBuf i x).Rep (st.setBuf i x) where
  disk := h.disk
  disksize := h.disksize
  buf := by rw [Bcache.setBuf, Store.setBuf, h.buf]
  spells := h.spells
  nodup := h.nodup
  mem := h.mem

/-- `bget` finds along the pointers what `Store.bget` finds in the list. -/
theorem Rep.bget (h : c.Rep st) (dev b : Nat) :
    (∃ i st' c', c.bget dev b = .ok (.got i c') ∧ st.bget dev b = .ok (i, st') ∧ c'.Rep st') ∨
    (∃ i, c.bget dev b = .ok (.wait i) ∧ st.bget dev b = .sleep) ∨
    (∃ msg, c.bget dev b = .panic msg ∧ st.bget dev b = .panic msg) := by
  have hnext := Links.Seg.scan_next (p := fun i => (c.buf i).dev == dev && (c.buf i).blockno == b) h.spells h.length
  have hprev := Links.Seg.scan_prev (p := fun i => !(c.buf i).busy && !(c.buf i).dirty) h.spells h.length
  have hcaches : st.caches dev b = fun i => (c.buf i).dev == dev && (c.buf i).blockno == b := by
    funext i
    rw [Store.caches, h.buf]
  rw [Bcache.bget, hnext, Store.bget, hcaches, hprev, h.buf]
  cases st.lru.find? fun i => (c.buf i).dev == dev && (c.buf i).blockno == b with
  | some i =>
    cases hbusy : (c.buf i).busy with
    | true => exact Or.inr (Or.inl ⟨i, by simp [hbusy], by simp [hbusy]⟩)
    | false => exact Or.inl ⟨i, _, _, by simp [hbusy]; rfl, by simp [hbusy], h.setBuf i _⟩
  | none =>
    cases st.lru.reverse.find? fun i => !(c.buf i).busy && !(c.buf i).dirty with
    | some i => exact Or.inl ⟨i, _, _, rfl, rfl, h.setBuf i _⟩
    | none => exact Or.inr (Or.inr ⟨_, rfl, rfl⟩)

theorem Rep.iderw (h : c.Rep st) (hc : c.iderw i = .ok c') : ∃ st', st.iderw i = .ok st' ∧ c'.Rep st' := by
  obtain ⟨st₁, hrw, heq⟩ := bind_eq_ok.mp hc
  cases heq
  have hst : ({ disk := c.disk, disksize := c.disksize, buf := c.buf, lru := [] } : Store) = { st with lru := [] } := by
    rw [← h.disk, ← h.disksize, ← h.buf]
  rw [hst, Store.iderw_lru] at hrw
  obtain ⟨st', hst', heq⟩ := bind_eq_ok.mp hrw
  cases heq
  obtain ⟨hlru, hsize⟩ := Store.iderw_keeps hst'
  exact ⟨st', hst', rfl, hsize.trans h.disksize, rfl, hlru ▸ h.spells, hlru ▸ h.nodup, hlru ▸ h.mem⟩

theorem Rep.bwrite (h : c.Rep st) (hc : c.bwrite i = .ok c') : ∃ st', st.bwrite i = .ok st' ∧ c'.Rep st' := by
  rw [Bcache.bwrite] at hc
  split at hc
  · cases hc
  rename_i hbusy
  obtain ⟨st', hst', hrep⟩ := (h.setBuf i { c.buf i with dirty := true }).iderw hc
  exact ⟨st', by rw [Store.bwrite, h.buf, if_neg hbusy]; exact hst', hrep⟩

theorem Rep.brelse (h : c.Rep st) (hc : c.brelse i = .ok c') : ∃ st', st.brelse i = .ok st' ∧ c'.Rep st' := by
  rw [Bcache.brelse] at hc
  split at hc
  · cases hc
  rename_i hbusy
  cases hc
  refine ⟨{ st.setBuf i { st.buf i with busy := false } with lru := i :: st.lru.erase i }, ?_, h.disk, h.disksize, ?_, ?_, ?_, fun j => ?_⟩
  · rw [Store.brelse, h.buf, if_neg hbusy]
  · rw [h.buf]
    exact (h.setBuf i _).buf
  · exact (h.spells.unlink h.nodup (h.mem i)).push (h.nodup.not_mem_erase) (h.nodup.erase i)
  · exact List.nodup_cons.mpr ⟨h.nodup.not_mem_erase, h.nodup.erase i⟩
  · by_cases hji : j = i
    · exact hji ▸ List.mem_cons_self
    · exact List.mem_cons_of_mem i ((List.mem_erase_of_ne hji).mpr (h.mem j))

/-! ### What each call changes -/

theorem bget_got (h : c.Rep st) (hget : c.bget dev b = .ok (.got i c')) :
    (c.buf i).busy = false ∧
      ((c.buf i).dev = dev ∧ (c.buf i).blockno = b ∧ c' = c.setBuf i { c.buf i with busy := true } ∨
       (∀ j, ¬((c.buf j).dev = dev ∧ (c.buf j).blockno = b)) ∧ (c.buf i).dirty = false ∧ c' = c.setBuf i
         { c.buf i with dev := dev, blockno := b, busy := true, valid := false, dirty := false }) := by
  have hnext := Links.Seg.scan_next (p := fun i => (c.buf i).dev == dev && (c.buf i).blockno == b) h.spells h.length
  have hprev := Links.Seg.scan_prev (p := fun i => !(c.buf i).busy && !(c.buf i).dirty) h.spells h.length
  rw [Bcache.bget, hnext, hprev] at hget
  split at hget
  · cases hget
  · rename_i k hk
    have hfound := List.find?_some (Option.some.inj hk)
    simp only [Bool.and_eq_true, beq_iff_eq] at hfound
    split at hget
    · rename_i hbusy
      cases hget
      exact ⟨hbusy, Or.inl ⟨hfound.1, hfound.2, rfl⟩⟩
    · cases hget
  · rename_i hnone
    have huncached : ∀ j, ¬((c.buf j).dev = dev ∧ (c.buf j).blockno = b) := fun j hj => by
      have := List.find?_eq_none.mp (Option.some.inj hnone) j (h.mem j)
      simp [hj.1, hj.2] at this
    split at hget
    · cases hget
    · rename_i k hk
      have hfree := List.find?_some (Option.some.inj hk)
      simp only [Bool.and_eq_true, Bool.not_eq_true'] at hfree
      cases hget
      exact ⟨hfree.1, Or.inr ⟨huncached, hfree.2, rfl⟩⟩
    · cases hget

theorem iderw_read (hv : (c.buf i).valid = false) (hd : (c.buf i).dirty = false) (h : c.iderw i = .ok c') :
    (c.buf i).dev = ROOTDEV ∧ c' = c.setBuf i { c.buf i with data := c.disk (c.buf i).blockno, valid := true } := by
  obtain ⟨st, hrw, heq⟩ := bind_eq_ok.mp h
  cases heq
  simp only [Store.iderw, hv, hd, Bool.false_eq_true, false_and, ↓reduceIte] at hrw
  split_ifs at hrw with h₁ h₂ h₃
  cases hrw
  exact ⟨by simpa using h₂, by simp [Store.setBuf, Bcache.setBuf, hd]⟩

theorem bwrite_written (h : c.bwrite i = .ok c') :
    (c.buf i).dev = ROOTDEV ∧ c' = { c.setBuf i { c.buf i with dirty := false, valid := true } with
      disk := update c.disk (c.buf i).blockno (c.buf i).data } := by
  rw [Bcache.bwrite] at h
  split at h
  · cases h
  obtain ⟨st, hrw, heq⟩ := bind_eq_ok.mp h
  cases heq
  simp only [Store.iderw, Bcache.setBuf, update_self] at hrw
  split_ifs at hrw with h₁ h₂ h₃
  cases hrw
  exact ⟨by simpa using h₂, by simp [Store.setBuf, Bcache.setBuf]⟩

theorem brelse_released (h : c.brelse i = .ok c') :
    c' = { c.setBuf i { c.buf i with busy := false } with links := (c.links.unlink i).push i } := by
  rw [Bcache.brelse] at h
  split at h
  · cases h
  · cases h
    rfl

end Bcache

/-! ### Coherence -/

section Coherent
variable {Pid : Type} [DecidableEq Pid]

/-- The cache of blocks with contents `F`, between any two steps of the processes that hold its buffers. -/
structure Coherent (c : Bcache) (grip : Pid → BufIdx → Option Grip) (F : Nat → Block) : Prop where
  uniq : ∀ i j, (c.buf i).dev ≠ NODEV → (c.buf j).dev = (c.buf i).dev → (c.buf j).blockno = (c.buf i).blockno → j = i
  busy : ∀ p i, grip p i ≠ none → (c.buf i).busy = true
  held : ∀ i, (c.buf i).busy = true → ∃ p, grip p i ≠ none
  sole : ∀ p q i, grip p i ≠ none → grip q i ≠ none → p = q
  root : ∀ i, (c.buf i).valid = true → (c.buf i).dev = ROOTDEV
  dirty : ∀ i, (c.buf i).dirty = true → (c.buf i).valid = true
  read : ∀ p i g, grip p i = some g → g ≠ .got → (c.buf i).valid = true
  data : ∀ i, (c.buf i).valid = true → (∀ p, grip p i ≠ some .changed ∧ grip p i ≠ some .checked) →
    (c.buf i).data = F (c.buf i).blockno
  disk : ∀ b, (∀ i, (c.buf i).dev = ROOTDEV → (c.buf i).blockno = b → (c.buf i).dirty = false) → c.disk b = F b

variable {c c' : Bcache} {grip grip' : Pid → BufIdx → Option Grip} {F F' : Nat → Block} {p : Pid} {i : BufIdx} {x : Buf}
  {g : Option Grip}

/-- Process `p` replaces buffer `i`, which nobody else holds, by `x`, and holds it as `g` then. -/
structure Replaces (c c' : Bcache) (grip grip' : Pid → BufIdx → Option Grip) (p : Pid) (i : BufIdx) (x : Buf) (g : Option Grip) :
    Prop where
  buf : c'.buf = update c.buf i x
  alone : ∀ q, q ≠ p → grip q i = none
  grips : grip' = update grip p (update (grip p) i g)

section
variable (h : Coherent c grip F)
include h

theorem Coherent.replace (hr : Replaces c c' grip grip' p i x g)
    (hblock : ∀ j, j ≠ i → x.dev ≠ NODEV → ¬((c.buf j).dev = x.dev ∧ (c.buf j).blockno = x.blockno))
    (hbusy : x.busy = true ↔ g ≠ none) (hroot : x.valid = true → x.dev = ROOTDEV) (hdirty : x.dirty = true → x.valid = true)
    (hread : ∀ g', g = some g' → g' ≠ .got → x.valid = true)
    (hdata : x.valid = true → g ≠ some .changed → g ≠ some .checked → x.data = F' x.blockno)
    (hF : ∀ b, ¬(x.dev = ROOTDEV ∧ x.blockno = b) → F' b = F b ∧ c'.disk b = c.disk b)
    (hdisk : x.dev = ROOTDEV → x.dirty = false → c'.disk x.blockno = F' x.blockno)
    (hkeep : (c.buf i).dirty = true → x.dev = (c.buf i).dev ∧ x.blockno = (c.buf i).blockno) : Coherent c' grip' F' := by
  have hself : c'.buf i = x := by rw [hr.buf, update_self]
  have hother : ∀ j, j ≠ i → c'.buf j = c.buf j := fun j hj => by rw [hr.buf, update_of_ne hj]
  have hgrip : grip' p i = g := by rw [hr.grips, update_self, update_self]
  have hgother : ∀ q j, j ≠ i → grip' q j = grip q j := fun q j hj => by
    rw [hr.grips]
    by_cases hq : q = p
    · rw [hq, update_self, update_of_ne hj]
    · rw [update_of_ne hq]
  have hgalone : ∀ q, q ≠ p → grip' q i = none := fun q hq => by rw [hr.grips, update_of_ne hq, hr.alone q hq]
  constructor
  case uniq =>
    intro j k hdev hd hb
    by_cases hj : j = i <;> by_cases hk : k = i
    · rw [hj, hk]
    · subst hj
      rw [hself, hother k hk] at hd hb
      rw [hself] at hdev
      exact absurd ⟨hd, hb⟩ (hblock k hk hdev)
    · subst hk
      rw [hself, hother j hj] at hd hb
      rw [hother j hj] at hdev
      exact absurd ⟨hd.symm, hb.symm⟩ (hblock j hj (hd.symm ▸ hdev))
    · rw [hother j hj] at hdev
      rw [hother j hj, hother k hk] at hd hb
      exact h.uniq j k hdev hd hb
  case busy =>
    intro q j hq
    by_cases hj : j = i
    · subst hj
      by_cases hqp : q = p
      · rw [hqp, hgrip] at hq
        rw [hself]
        exact hbusy.mpr hq
      · exact absurd (hgalone q hqp) hq
    · rw [hgother q j hj] at hq
      rw [hother j hj]
      exact h.busy q j hq
  case held =>
    intro j hb
    by_cases hj : j = i
    · subst hj
      rw [hself] at hb
      exact ⟨p, by rw [hgrip]; exact hbusy.mp hb⟩
    · rw [hother j hj] at hb
      obtain ⟨q, hq⟩ := h.held j hb
      exact ⟨q, by rw [hgother q j hj]; exact hq⟩
  case sole =>
    intro q r j hq hr'
    by_cases hj : j = i
    · subst hj
      have hqp : q = p := by_contra fun hne => hq (hgalone q hne)
      have hrp : r = p := by_contra fun hne => hr' (hgalone r hne)
      rw [hqp, hrp]
    · rw [hgother _ j hj] at hq hr'
      exact h.sole q r j hq hr'
  case root =>
    intro j hv
    by_cases hj : j = i
    · subst hj
      rw [hself] at hv ⊢
      exact hroot hv
    · rw [hother j hj] at hv ⊢
      exact h.root j hv
  case dirty =>
    intro j hd
    by_cases hj : j = i
    · subst hj
      rw [hself] at hd ⊢
      exact hdirty hd
    · rw [hother j hj] at hd ⊢
      exact h.dirty j hd
  case read =>
    intro q j g' hq hne
    by_cases hj : j = i
    · subst hj
      rw [hself]
      by_cases hqp : q = p
      · rw [hqp, hgrip] at hq
        exact hread g' hq hne
      · rw [hgalone q hqp] at hq
        cases hq
    · rw [hgother q j hj] at hq
      rw [hother j hj]
      exact h.read q j g' hq hne
  case data =>
    intro j hv hno
    by_cases hj : j = i
    · subst hj
      have hno := hno p
      rw [hgrip] at hno
      rw [hself] at hv ⊢
      exact hdata hv hno.1 hno.2
    · rw [hother j hj] at hv ⊢
      have hat : ¬(x.dev = ROOTDEV ∧ x.blockno = (c.buf j).blockno) := fun hx =>
        hblock j hj (by rw [hx.1]; decide) ⟨(h.root j hv).trans hx.1.symm, hx.2.symm⟩
      rw [(hF _ hat).1]
      exact h.data j hv fun q => by
        rw [← hgother q j hj]
        exact hno q
  case disk =>
    intro b hclean
    by_cases hx : x.dev = ROOTDEV ∧ x.blockno = b
    · obtain ⟨hdev, rfl⟩ := hx
      have hd := hclean i
      rw [hself] at hd
      exact hdisk hdev (hd hdev rfl)
    · rw [(hF b hx).1, (hF b hx).2]
      refine h.disk b fun j hdev hb => ?_
      by_cases hj : j = i
      · -- The buffer cached another block before, and was clean.
        subst hj
        by_contra hd
        obtain ⟨hxd, hxb⟩ := hkeep (by simpa using hd)
        exact hx ⟨hxd.trans hdev, hxb.trans hb⟩
      · have := hclean j
        rw [hother j hj] at this
        exact this hdev hb

omit [DecidableEq Pid] in
theorem Coherent.others {dev b : Nat} (hdev : dev = (c.buf i).dev) (hb : b = (c.buf i).blockno) :
    ∀ j, j ≠ i → dev ≠ NODEV → ¬((c.buf j).dev = dev ∧ (c.buf j).blockno = b) := fun j hj hne hat =>
  hj (h.uniq i j (hdev ▸ hne) (hat.1.trans hdev) (hat.2.trans hb))

omit [DecidableEq Pid] in
theorem Coherent.idle (hb : (c.buf i).busy = false) (q : Pid) : grip q i = none := by
  by_contra hq
  rw [h.busy q i hq] at hb
  cases hb

omit [DecidableEq Pid] in
theorem Coherent.alone (hp : grip p i ≠ none) (q : Pid) (hq : q ≠ p) : grip q i = none :=
  by_contra fun hne => hq (h.sole q p i hne hp)

theorem Coherent.data_of_grip (hv : (c.buf i).valid = true) (halone : ∀ q, q ≠ p → grip q i = none)
    (hp : grip p i ≠ some .changed ∧ grip p i ≠ some .checked) : (c.buf i).data = F (c.buf i).blockno := by
  refine h.data i hv fun q => ?_
  by_cases hq : q = p
  · exact hq ▸ hp
  · rw [halone q hq]
    exact ⟨nofun, nofun⟩

omit [DecidableEq Pid] in
theorem Coherent.valid_of_grip (hp : grip p i = some .read ∨ grip p i = some .changed) :
    grip p i ≠ none ∧ (c.buf i).valid = true := by
  rcases hp with hp | hp
  · exact ⟨hp ▸ nofun, h.read p i _ hp nofun⟩
  · exact ⟨hp ▸ nofun, h.read p i _ hp nofun⟩

omit [DecidableEq Pid] in
theorem Coherent.clean (hdev : (c.buf i).dev = ROOTDEV) (hd : (c.buf i).dirty = false) :
    c.disk (c.buf i).blockno = F (c.buf i).blockno := h.disk _ fun j hj hb => by
  rw [h.uniq i j (by rw [hdev]; decide) (hj.trans hdev.symm) hb]
  exact hd

theorem Coherent.hit (hb : (c.buf i).busy = false)
    (hr : Replaces c c' grip grip' p i { c.buf i with busy := true } (some .got)) (hdisk : c'.disk = c.disk) :
    Coherent c' grip' F := by
  refine h.replace hr (h.others rfl rfl) (iff_of_true rfl nofun) (h.root i) (h.dirty i) (fun g' hg hne => ?_) (fun hv _ _ => ?_)
    (fun b _ => ⟨rfl, by rw [hdisk]⟩) (fun hdev hd => ?_) fun _ => ⟨rfl, rfl⟩
  · cases hg
    exact absurd rfl hne
  · exact h.data_of_grip (p := p) hv hr.alone (by rw [h.idle hb p]; exact ⟨nofun, nofun⟩)
  · rw [hdisk]
    exact h.clean hdev hd

/-- `bget` of a block that is not cached. -/
theorem Coherent.recycle {dev b : Nat} (hd : (c.buf i).dirty = false)
    (hno : ∀ j, ¬((c.buf j).dev = dev ∧ (c.buf j).blockno = b))
    (hr : Replaces c c' grip grip' p i { c.buf i with dev := dev, blockno := b, busy := true, valid := false, dirty := false }
      (some .got)) (hdisk : c'.disk = c.disk) : Coherent c' grip' F := by
  refine h.replace hr (fun j _ _ => hno j) (iff_of_true rfl nofun) nofun nofun (fun g' hg hne => ?_) nofun
    (fun b _ => ⟨rfl, by rw [hdisk]⟩) (fun hdev _ => ?_) fun hd' => ?_
  · cases hg
    exact absurd rfl hne
  · rw [hdisk]
    exact h.disk _ fun j hj hb => absurd ⟨hj.trans hdev.symm, hb⟩ (hno j)
  · rw [hd] at hd'
    cases hd'

theorem Coherent.fill (hp : grip p i = some .got) (hv : (c.buf i).valid = false)
    (hdev : (c.buf i).dev = ROOTDEV)
    (hr : Replaces c c' grip grip' p i { c.buf i with data := c.disk (c.buf i).blockno, valid := true } (some .read))
    (hdisk : c'.disk = c.disk) : c.disk (c.buf i).blockno = F (c.buf i).blockno ∧ Coherent c' grip' F := by
  have hd : (c.buf i).dirty = false := by
    by_contra hd
    rw [h.dirty i (by simpa using hd)] at hv
    cases hv
  have hF := h.clean hdev hd
  have hbusy : (c.buf i).busy = true := h.busy p i (by rw [hp]; nofun)
  refine ⟨hF, h.replace hr (h.others rfl rfl) (iff_of_true hbusy nofun) (fun _ => hdev) (fun _ => rfl) (fun _ _ _ => rfl)
    (fun _ _ _ => hF) (fun b _ => ⟨rfl, by rw [hdisk]⟩) (fun _ _ => by rw [hdisk]; exact hF) fun _ => ⟨rfl, rfl⟩⟩

theorem Coherent.grips {data : Block} {g' : Grip} (hp : grip p i ≠ none) (hv : (c.buf i).valid = true)
    (hdata : g' ≠ .changed → g' ≠ .checked → data = F (c.buf i).blockno)
    (hr : Replaces c c' grip grip' p i { c.buf i with data := data } (some g')) (hdisk : c'.disk = c.disk) : Coherent c' grip' F := by
  refine h.replace hr (h.others rfl rfl) (iff_of_true (h.busy p i hp) nofun) (h.root i) (h.dirty i) (fun _ _ _ => hv) (fun _ h₁ h₂ => ?_)
    (fun b _ => ⟨rfl, by rw [hdisk]⟩) (fun hdev hd => ?_) fun _ => ⟨rfl, rfl⟩
  · exact hdata (fun heq => h₁ (heq ▸ rfl)) fun heq => h₂ (heq ▸ rfl)
  · rw [hdisk]
    exact h.clean hdev hd

theorem Coherent.give (hp : grip p i ≠ none) (hv : (c.buf i).valid = true) (dirty : Bool)
    (hr : Replaces c c' grip grip' p i { c.buf i with dirty := dirty, valid := true } (some .read))
    (hdisk : c'.disk = if dirty then c.disk else update c.disk (c.buf i).blockno (c.buf i).data) :
    Coherent c' grip' (update F (c.buf i).blockno (c.buf i).data) := by
  have hdev := h.root i hv
  refine h.replace hr (h.others rfl rfl) (iff_of_true (h.busy p i hp) nofun) (fun _ => hdev) (fun _ => rfl) (fun _ _ _ => rfl)
    (fun _ _ _ => by simp) (fun b hb => ?_) (fun _ hd => ?_) fun _ => ⟨rfl, rfl⟩
  · have hne : b ≠ (c.buf i).blockno := fun heq => hb ⟨hdev, heq.symm⟩
    refine ⟨update_of_ne hne _ _, ?_⟩
    rw [hdisk]
    split
    · rfl
    · exact update_of_ne hne _ _
  · obtain rfl : dirty = false := hd
    rw [hdisk, if_neg (by decide), update_self, update_self]

theorem Coherent.release (hp : grip p i = some .read)
    (hr : Replaces c c' grip grip' p i { c.buf i with busy := false } none) (hdisk : c'.disk = c.disk) : Coherent c' grip' F := by
  have hv := h.read p i _ hp nofun
  refine h.replace hr (h.others rfl rfl) (iff_of_false nofun fun hne => hne rfl) (h.root i) (h.dirty i) nofun (fun _ _ _ => ?_)
    (fun b _ => ⟨rfl, by rw [hdisk]⟩) (fun hdev hd => ?_) fun _ => ⟨rfl, rfl⟩
  · exact h.data_of_grip hv hr.alone (by rw [hp]; exact ⟨nofun, nofun⟩)
  · rw [hdisk]
    exact h.clean hdev hd

end

end Coherent

/-! ### Runs -/

/-- The contents that each block was last given, with `disk` as it was at the start. -/
def contents {Pid : Type} (disk : Nat → Block) : List (Event Pid) → Nat → Block
  | [] => disk
  | .given _ b data :: es => update (contents disk es) b data
  | .returned _ _ _ :: es => contents disk es

namespace Users
variable {Pid : Type} [DecidableEq Pid] {disk : Nat → Block} {size : Nat} {s t : Users Pid} {p : Pid} {i : BufIdx}

structure Inv (disk : Nat → Block) (s : Users Pid) : Prop where
  rep : ∃ st, s.cache.Rep st
  coh : Coherent s.cache s.grip (contents disk s.events)
  returned : ∀ es p b data es', s.events = es ++ .returned p b data :: es' → data = contents disk es' b

/-- The buffers that are busy or dirty keep their blocks. -/
def Keeps (s t : Users Pid) : Prop :=
  ∀ i, (s.cache.buf i).busy = true ∨ (s.cache.buf i).dirty = true →
    (t.cache.buf i).dev = (s.cache.buf i).dev ∧ (t.cache.buf i).blockno = (s.cache.buf i).blockno

omit [DecidableEq Pid] in
theorem keeps_of_buf {x : Buf} (hbuf : t.cache.buf = update s.cache.buf i x)
    (hx : (s.cache.buf i).busy = true ∨ (s.cache.buf i).dirty = true → x.dev = (s.cache.buf i).dev ∧ x.blockno = (s.cache.buf i).blockno) :
    s.Keeps t := fun j hj => by
  rw [hbuf]
  by_cases hji : j = i
  · subst hji
    rw [update_self]
    exact hx hj
  · rw [update_of_ne hji]
    exact ⟨rfl, rfl⟩

section
variable (h : s.Inv disk)
include h

omit [DecidableEq Pid] in
theorem Inv.add_event {e : Event Pid} (hes : t.events = e :: s.events)
    (he : ∀ p b data, e = .returned p b data → data = contents disk s.events b) (es : List (Event Pid)) (p : Pid) (b : Nat)
    (data : Block) (es' : List (Event Pid)) (heq : t.events = es ++ .returned p b data :: es') : data = contents disk es' b := by
  rw [hes] at heq
  cases es with
  | nil =>
    obtain ⟨rfl, rfl⟩ := List.cons.inj heq
    exact he p b data rfl
  | cons e' es => exact h.returned es p b data es' (List.cons.inj heq).2

theorem Inv.bget {dev b : Nat} (hs : s.bget p dev b = .ok t) : t.Inv disk ∧ s.Keeps t := by
  obtain ⟨g, hget, hs⟩ := bind_eq_ok.mp hs
  obtain ⟨st, hst⟩ := h.rep
  cases g with
  | wait i =>
    cases hs
    exact ⟨⟨h.rep, h.coh, h.returned⟩, fun _ _ => ⟨rfl, rfl⟩⟩
  | got i c =>
    cases hs
    have hrep : ∃ st', c.Rep st' := by
      rcases hst.bget dev b with ⟨i', st', c', hc, -, hrep⟩ | ⟨i', hc, -⟩ | ⟨msg, hc, -⟩
      · cases hget.symm.trans hc
        exact ⟨st', hrep⟩
      · cases hget.symm.trans hc
      · cases hget.symm.trans hc
    obtain ⟨hbusy, hcase⟩ := Bcache.bget_got hst hget
    rcases hcase with ⟨-, -, rfl⟩ | ⟨hno, hd, rfl⟩
    · exact ⟨⟨hrep, h.coh.hit hbusy ⟨rfl, fun q _ => h.coh.idle hbusy q, rfl⟩ rfl, h.returned⟩, keeps_of_buf rfl fun _ => ⟨rfl, rfl⟩⟩
    · refine ⟨⟨hrep, h.coh.recycle hd hno ⟨rfl, fun q _ => h.coh.idle hbusy q, rfl⟩ rfl, h.returned⟩, keeps_of_buf rfl fun hor => ?_⟩
      rw [hbusy, hd] at hor
      simp at hor

theorem Inv.fill (hp : s.grip p i = some .got) (hs : s.fill p i = .ok t) : t.Inv disk ∧ s.Keeps t := by
  obtain ⟨c, hc, hs⟩ := bind_eq_ok.mp hs
  cases hs
  obtain ⟨st, hst⟩ := h.rep
  have hne : s.grip p i ≠ none := by
    rw [hp]
    nofun
  rw [Bcache.fill] at hc
  split at hc
  · rename_i hv
    have hd : (s.cache.buf i).dirty = false := by
      by_contra hd
      rw [h.coh.dirty i (by simpa using hd)] at hv
      cases hv
    obtain ⟨st', -, hrep⟩ := hst.iderw hc
    obtain ⟨hdev, rfl⟩ := Bcache.iderw_read hv hd hc
    have hfill : _ ∧ Coherent (s.cache.setBuf i { s.cache.buf i with data := s.cache.disk (s.cache.buf i).blockno, valid := true })
        (s.setGrip p i (some .read)).grip _ := h.coh.fill hp hv hdev ⟨rfl, h.coh.alone hne, rfl⟩ rfl
    obtain ⟨hF, hcoh⟩ := hfill
    refine ⟨⟨⟨st', hrep⟩, hcoh, h.add_event rfl fun _ _ _ heq => ?_⟩, keeps_of_buf rfl fun _ => ⟨rfl, rfl⟩⟩
    cases heq
    simpa [Bcache.setBuf] using hF
  · rename_i hv
    cases hc
    have hv : (s.cache.buf i).valid = true := by simpa using hv
    have hF := h.coh.data_of_grip hv (h.coh.alone hne) (by rw [hp]; exact ⟨nofun, nofun⟩)
    refine ⟨⟨⟨st, hst⟩, h.coh.grips hne hv (fun _ _ => hF) ⟨?_, h.coh.alone hne, rfl⟩ rfl, h.add_event rfl fun _ _ _ heq => ?_⟩,
      fun _ _ => ⟨rfl, rfl⟩⟩
    · exact (update_eq_self i _).symm
    · cases heq
      exact hF

theorem Inv.modify {data : Block} (hp : s.grip p i = some .read ∨ s.grip p i = some .changed) :
    Inv disk { s.setGrip p i (some .changed) with cache := s.cache.setBuf i { s.cache.buf i with data := data } } := by
  obtain ⟨st, hst⟩ := h.rep
  obtain ⟨hne, hv⟩ := h.coh.valid_of_grip hp
  exact ⟨⟨_, hst.setBuf i _⟩, h.coh.grips hne hv (fun hno => absurd rfl hno) ⟨rfl, h.coh.alone hne, rfl⟩ rfl, h.returned⟩

theorem Inv.bwrite (hp : s.grip p i = some .read ∨ s.grip p i = some .changed) (hs : s.bwrite p i = .ok t) :
    t.Inv disk ∧ s.Keeps t := by
  obtain ⟨c, hc, hs⟩ := bind_eq_ok.mp hs
  cases hs
  obtain ⟨st, hst⟩ := h.rep
  obtain ⟨hne, hv⟩ := h.coh.valid_of_grip hp
  obtain ⟨st', -, hrep⟩ := hst.bwrite hc
  obtain ⟨hdev, rfl⟩ := Bcache.bwrite_written hc
  refine ⟨⟨⟨st', hrep⟩, ?_, h.add_event rfl nofun⟩, keeps_of_buf rfl fun _ => ⟨rfl, rfl⟩⟩
  have hself : (update s.cache.buf i { s.cache.buf i with dirty := false, valid := true }) i =
      { s.cache.buf i with dirty := false, valid := true } := update_self ..
  simp only [contents, Bcache.setBuf, hself]
  exact h.coh.give hne hv false ⟨rfl, h.coh.alone hne, rfl⟩ rfl

theorem Inv.logWriteAbsorb (hp : s.grip p i = some .checked) : (s.logWriteAbsorb p i).Inv disk := by
  obtain ⟨st, hst⟩ := h.rep
  have hne : s.grip p i ≠ none := hp ▸ nofun
  have hv := h.coh.read p i _ hp nofun
  have hcoh : Coherent (s.cache.setBuf i { s.cache.buf i with dirty := true }) (s.setGrip p i (some .read)).grip _ :=
    h.coh.give hne hv true ⟨by rw [Bcache.setBuf, ← hv], h.coh.alone hne, rfl⟩ rfl
  exact ⟨⟨_, hst.setBuf i _⟩, hcoh, h.add_event rfl nofun⟩

theorem Inv.logWriteCheck (hp : s.grip p i = some .read ∨ s.grip p i = some .changed) :
    (s.setGrip p i (some .checked)).Inv disk := by
  obtain ⟨hne, hv⟩ := h.coh.valid_of_grip hp
  exact ⟨h.rep, h.coh.grips hne hv (fun _ hno => absurd rfl hno) ⟨(update_eq_self i _).symm, h.coh.alone hne, rfl⟩ rfl, h.returned⟩

theorem Inv.brelse (hp : s.grip p i = some .read) (hs : s.brelse p i = .ok t) : t.Inv disk ∧ s.Keeps t := by
  obtain ⟨c, hc, hs⟩ := bind_eq_ok.mp hs
  cases hs
  obtain ⟨st, hst⟩ := h.rep
  have hne : s.grip p i ≠ none := hp ▸ nofun
  obtain ⟨st', -, hrep⟩ := hst.brelse hc
  obtain rfl := Bcache.brelse_released hc
  exact ⟨⟨⟨st', hrep⟩, h.coh.release hp ⟨rfl, h.coh.alone hne, rfl⟩ rfl, h.returned⟩, keeps_of_buf rfl fun _ => ⟨rfl, rfl⟩⟩

end

omit [DecidableEq Pid] in
theorem inv_start (disk : Nat → Block) (disksize : Nat) : (start disk disksize : Users Pid).Inv disk where
  rep := ⟨_, Bcache.rep_binit disk disksize⟩
  coh :=
    { uniq := fun _ _ hne => absurd rfl hne
      busy := fun _ _ hne => absurd rfl hne
      held := nofun
      sole := fun _ _ _ hne => absurd rfl hne
      root := nofun
      dirty := nofun
      read := nofun
      data := nofun
      disk := fun _ _ => rfl }
  returned := fun es _ _ _ _ heq => by
    cases es <;> cases heq

theorem Inv.step (h : s.Inv disk) {a : Act Pid} (hs : step size s a = .ok t) : t.Inv disk ∧ s.Keeps t := by
  cases a with
  | bread p dev b =>
    dsimp only [Users.step] at hs
    split at hs
    · exact h.bget hs
    · cases hs
  | retry p =>
    dsimp only [Users.step] at hs
    split at hs
    · exact h.bget hs
    · cases hs
  | fill p i =>
    dsimp only [Users.step] at hs
    split at hs
    · rename_i hp
      exact h.fill hp.2 hs
    · cases hs
  | modify p i data =>
    dsimp only [Users.step] at hs
    split at hs
    · rename_i hp
      cases hs
      exact ⟨h.modify hp.2, keeps_of_buf rfl fun _ => ⟨rfl, rfl⟩⟩
    · cases hs
  | bwrite p i =>
    dsimp only [Users.step] at hs
    split at hs
    · rename_i hp
      exact h.bwrite hp.2 hs
    · cases hs
  | logWriteCheck p i =>
    dsimp only [Users.step] at hs
    split at hs
    · rename_i hp
      rw [Users.logWriteCheck] at hs
      split_ifs at hs
      cases hs
      exact ⟨h.logWriteCheck hp.2, fun _ _ => ⟨rfl, rfl⟩⟩
    · cases hs
  | logWriteAbsorb p i =>
    dsimp only [Users.step] at hs
    split at hs
    · rename_i hp
      cases hs
      exact ⟨h.logWriteAbsorb hp.2, keeps_of_buf rfl fun _ => ⟨rfl, rfl⟩⟩
    · cases hs
  | brelse p i =>
    dsimp only [Users.step] at hs
    split at hs
    · rename_i hp
      exact h.brelse hp.2 hs
    · cases hs
  | log lh outstanding =>
    cases hs
    exact ⟨⟨h.rep, h.coh, h.returned⟩, fun _ _ => ⟨rfl, rfl⟩⟩

/-- In every state that processes can reach through the cache: its pointers lead around a list of all buffers and back; no
    block has two buffers, and no buffer two holders; the next step does not give a buffer that is busy or dirty to another
    block; and `bread` has always returned what its block was last given. -/
theorem cache_transparent {disksize : Nat}
    (h : Reachable (step size) (fun _ _ => True) (fun s => s = start disk disksize) s) :
    (∃ l : List BufIdx, s.cache.links.Spells l ∧ l.Nodup ∧ ∀ i, i ∈ l) ∧
    (∀ i j, (s.cache.buf i).dev ≠ NODEV → (s.cache.buf j).dev = (s.cache.buf i).dev →
      (s.cache.buf j).blockno = (s.cache.buf i).blockno → j = i) ∧
    (∀ p q i, s.grip p i ≠ none → s.grip q i ≠ none → p = q) ∧
    (∀ i, (s.cache.buf i).busy = true ↔ ∃ p, s.grip p i ≠ none) ∧
    (∀ a t, step size s a = .ok t → ∀ i, (s.cache.buf i).busy = true ∨ (s.cache.buf i).dirty = true →
      (t.cache.buf i).dev = (s.cache.buf i).dev ∧ (t.cache.buf i).blockno = (s.cache.buf i).blockno) ∧
    (∀ es p b data es', s.events = es ++ .returned p b data :: es' → data = contents disk es' b) := by
  have hinv : s.Inv disk := h.invariant (fun s hs => hs ▸ inv_start disk disksize) fun s a t hs _ hstep => (hs.step hstep).1
  obtain ⟨st, hst⟩ := hinv.rep
  exact ⟨⟨st.lru, hst.spells, hst.nodup, hst.mem⟩, hinv.coh.uniq, hinv.coh.sole,
    fun i => ⟨hinv.coh.held i, fun ⟨p, hp⟩ => hinv.coh.busy p i hp⟩, fun a t hs => (hinv.step hs).2, hinv.returned⟩

/-- One process changes block 5 and logs it while another waits for it, and then reads it. -/
theorem cache_transparent_two : ∃ (s : Users Bool) (new old : Block) (es : List (Event Bool)),
    Reachable (step 30) (fun _ _ => True) (fun s => s = start (fun _ => .zero) 1000) s ∧
    s.events = .returned true 5 new :: .given false 5 old :: es ∧ new = old := by
  obtain ⟨s, hs, hevents⟩ : ∃ s, runList (step 30) (start (fun _ => .zero) 1000 : Users Bool)
      [.log [] 1, .bread false 1 5, .fill false 0, .modify false 0 (fun _ => 7), .bread true 1 5, .logWriteCheck false 0,
        .logWriteAbsorb false 0, .brelse false 0, .retry true, .fill true 0] = .ok s ∧ (match s.events with
      | .returned true 5 _ :: .given false 5 _ :: _ => true
      | _ => false) = true := by
    decide +kernel
  have hreach : Reachable (step 30) (fun _ _ => True) (fun s : Users Bool => s = start (fun _ => .zero) 1000) s :=
    .runList (fun _ _ => trivial) (.init rfl) hs
  split at hevents
  · rename_i new old es hes
    obtain ⟨-, -, -, -, -, hret⟩ := cache_transparent hreach
    have hnew := hret [] true 5 new (.given false 5 old :: es) hes
    rw [contents, update_self] at hnew
    exact ⟨s, new, old, es, hreach, hes, hnew⟩
  · cases hevents

end Users
end Xv6
