import Xv6.Bio

/-! What the buffer cache keeps. A block has one *view*, the contents `bread` returns for it: those of its
    buffer if it has a valid one, else those on disk. `bread` and `brelse` leave every view alone, and a
    buffer that is neither dirty nor being changed agrees with the disk. -/

namespace Xv6
open Function (update update_of_ne update_self)
namespace Store

variable {st st' : Store} {chg : BufIdx → Prop} {b c : Nat} {i j : BufIdx}

def At (st : Store) (b : Nat) (i : BufIdx) : Prop := (st.buf i).dev = ROOTDEV ∧ (st.buf i).blockno = b

def Pinned (st : Store) (b : Nat) : Prop := ∃ i, st.At b i ∧ (st.buf i).dirty = true

def view (st : Store) (b : Nat) : Block :=
  match st.lru.find? (st.caches ROOTDEV b) with
  | some i => if (st.buf i).valid then (st.buf i).data else st.disk b
  | none => st.disk b

/-- The cache is in order; `chg` holds of the buffers whose holder has changed them since the last
    `bwrite` or `log_write`. -/
structure Ok (st : Store) (chg : BufIdx → Prop) : Prop where
  nodup : st.lru.Nodup
  mem : ∀ i, i ∈ st.lru
  uniq : ∀ b i j, st.At b i → st.At b j → i = j
  clean : ∀ i, (st.buf i).valid = true → (st.buf i).dirty = false → ¬chg i →
    (st.buf i).data = st.disk (st.buf i).blockno
  dirty : ∀ i, (st.buf i).dirty = true → (st.buf i).valid = true
  root : ∀ i, (st.buf i).valid = true → (st.buf i).dev = ROOTDEV ∧ (st.buf i).blockno < st.disksize

theorem caches_iff : st.caches ROOTDEV b i = true ↔ st.At b i := by
  simp [caches, At]

/-! ### Updates -/

@[simp] theorem setBuf_disk (x : Buf) : (st.setBuf i x).disk = st.disk := rfl
@[simp] theorem setBuf_disksize (x : Buf) : (st.setBuf i x).disksize = st.disksize := rfl
@[simp] theorem setBuf_lru (x : Buf) : (st.setBuf i x).lru = st.lru := rfl
@[simp] theorem setBuf_buf_self (x : Buf) : (st.setBuf i x).buf i = x := by simp [setBuf]

theorem setBuf_buf_of_ne (x : Buf) (h : j ≠ i) : (st.setBuf i x).buf j = st.buf j := by
  simp [setBuf, h]

theorem at_setBuf_self {x : Buf} : (st.setBuf i x).At b i ↔ x.dev = ROOTDEV ∧ x.blockno = b := by
  simp [At]

theorem at_setBuf_of_ne {x : Buf} (h : j ≠ i) : (st.setBuf i x).At b j ↔ st.At b j := by
  simp [At, setBuf_buf_of_ne x h]

/-! ### Views -/

namespace Ok

theorem find?_of_at (ok : st.Ok chg) (h : st.At b i) : st.lru.find? (st.caches ROOTDEV b) = some i := by
  cases hf : st.lru.find? (st.caches ROOTDEV b) with
  | none => exact absurd (caches_iff.mpr h) (List.find?_eq_none.mp hf i (ok.mem i))
  | some j => rw [ok.uniq b j i (caches_iff.mp (List.find?_some hf)) h]

theorem view_of_valid (ok : st.Ok chg) (h : st.At b i) (hv : (st.buf i).valid = true) :
    st.view b = (st.buf i).data := by
  simp [view, ok.find?_of_at h, hv]

theorem view_of_invalid (ok : st.Ok chg) (h : st.At b i) (hv : (st.buf i).valid = false) :
    st.view b = st.disk b := by
  simp [view, ok.find?_of_at h, hv]

end Ok

theorem view_of_uncached (h : ∀ i, ¬st.At b i) : st.view b = st.disk b := by
  have hf : st.lru.find? (st.caches ROOTDEV b) = none :=
    List.find?_eq_none.mpr fun i _ hi => h i (caches_iff.mp hi)
  simp [view, hf]

theorem Ok.view_eq_disk (ok : st.Ok chg) (hp : ¬st.Pinned b) (hc : ∀ i, st.At b i → ¬chg i) :
    st.view b = st.disk b := by
  by_cases h : ∃ i, st.At b i
  · obtain ⟨i, hi⟩ := h
    cases hv : (st.buf i).valid
    · exact ok.view_of_invalid hi hv
    · have hd : (st.buf i).dirty = false := by
        rw [Bool.eq_false_iff]
        exact fun hd => hp ⟨i, hi, hd⟩
      rw [ok.view_of_valid hi hv, ok.clean i hv hd (hc i hi), hi.2]
  · exact view_of_uncached fun i hi => h ⟨i, hi⟩

theorem Ok.mono {chg' : BufIdx → Prop} (ok : st.Ok chg) (h : ∀ i, chg i → chg' i) : st.Ok chg' :=
  { ok with clean := fun i hv hd hc => ok.clean i hv hd fun hi => hc (h i hi) }

theorem Ok.setBuf {chg' : BufIdx → Prop} {x : Buf} (ok : st.Ok chg)
    (hat : x.dev = ROOTDEV → ∀ j, j ≠ i → ¬st.At x.blockno j)
    (hclean : x.valid = true → x.dirty = false → ¬chg' i → x.data = st.disk x.blockno)
    (hdirty : x.dirty = true → x.valid = true) (hroot : x.valid = true → x.dev = ROOTDEV ∧ x.blockno < st.disksize)
    (hchg : ∀ j, j ≠ i → chg j → chg' j) : (st.setBuf i x).Ok chg' where
  nodup := ok.nodup
  mem := ok.mem
  uniq := by
    intro b j k hj hk
    by_cases hji : j = i <;> by_cases hki : k = i
    · rw [hji, hki]
    · subst hji
      obtain ⟨hd, rfl⟩ := at_setBuf_self.mp hj
      exact absurd ((at_setBuf_of_ne hki).mp hk) (hat hd k hki)
    · subst hki
      obtain ⟨hd, rfl⟩ := at_setBuf_self.mp hk
      exact absurd ((at_setBuf_of_ne hji).mp hj) (hat hd j hji)
    · exact ok.uniq b j k ((at_setBuf_of_ne hji).mp hj) ((at_setBuf_of_ne hki).mp hk)
  clean := by
    intro j hv hd hc
    by_cases hji : j = i
    · subst hji
      simp only [setBuf_buf_self] at hv hd ⊢
      exact hclean hv hd hc
    · rw [setBuf_buf_of_ne x hji] at hv hd ⊢
      exact ok.clean j hv hd fun h => hc (hchg j hji h)
  dirty := by
    intro j hd
    by_cases hji : j = i
    · subst hji
      simp only [setBuf_buf_self] at hd ⊢
      exact hdirty hd
    · rw [setBuf_buf_of_ne x hji] at hd ⊢
      exact ok.dirty j hd
  root := by
    intro j hv
    by_cases hji : j = i
    · subst hji
      simp only [setBuf_buf_self] at hv ⊢
      exact hroot hv
    · rw [setBuf_buf_of_ne x hji] at hv ⊢
      exact ok.root j hv

theorem Ok.other (ok : st.Ok chg) (h : st.At b i) : ∀ j, j ≠ i → ¬st.At b j :=
  fun j hji hj => hji (ok.uniq b j i hj h)

theorem Ok.view_congr {chg' : BufIdx → Prop} (ok : st.Ok chg) (ok' : st'.Ok chg') (hdisk : st'.disk b = st.disk b)
    (hat : ∀ j, st'.At b j ↔ st.At b j)
    (hbuf : ∀ j, st.At b j → (st'.buf j).valid = (st.buf j).valid ∧ (st'.buf j).data = (st.buf j).data) :
    st'.view b = st.view b := by
  by_cases h : ∃ j, st.At b j
  · obtain ⟨j, hj⟩ := h
    obtain ⟨hvalid, hdata⟩ := hbuf j hj
    cases hv : (st.buf j).valid
    · rw [ok.view_of_invalid hj hv, ok'.view_of_invalid ((hat j).mpr hj) (hvalid.trans hv), hdisk]
    · rw [ok.view_of_valid hj hv, ok'.view_of_valid ((hat j).mpr hj) (hvalid.trans hv), hdata]
  · rw [view_of_uncached fun j hj => h ⟨j, hj⟩, view_of_uncached fun j hj => h ⟨j, (hat j).mp hj⟩, hdisk]

theorem Ok.view_setBuf_of_ne {x : Buf} (ok : st.Ok chg) {chg' : BufIdx → Prop} (ok' : (st.setBuf i x).Ok chg')
    (hold : ¬st.At b i) (hnew : ¬(x.dev = ROOTDEV ∧ x.blockno = b)) : (st.setBuf i x).view b = st.view b := by
  refine ok.view_congr ok' rfl (fun j => ?_) fun j hj => ?_
  · by_cases hji : j = i
    · subst hji
      exact iff_of_false (fun h => hnew (at_setBuf_self.mp h)) hold
    · exact at_setBuf_of_ne hji
  · have hji : j ≠ i := fun e => hold (e ▸ hj)
    rw [setBuf_buf_of_ne x hji]
    exact ⟨rfl, rfl⟩

theorem at_setBuf_same (st : Store) (i : BufIdx) (x : Buf) (hdev : x.dev = (st.buf i).dev) (hno : x.blockno = (st.buf i).blockno) (b : Nat)
    (j : BufIdx) : (st.setBuf i x).At b j ↔ st.At b j := by
  by_cases hji : j = i
  · subst hji
    rw [at_setBuf_self, hdev, hno]
    rfl
  · exact at_setBuf_of_ne hji

/-! ### `bread` -/

/-- What `bread` of block `b` gives: buffer `i`, which nobody held, now busy with the view of `b`; nothing
    else can be seen to change. -/
structure Read (st st' : Store) (b : Nat) (i : BufIdx) : Prop where
  disk : st'.disk = st.disk
  disksize : st'.disksize = st.disksize
  others : ∀ j, j ≠ i → st'.buf j = st.buf j
  idle : (st.buf i).busy = false
  busy : (st'.buf i).busy = true
  valid : (st'.buf i).valid = true
  here : st'.At b i
  data : (st'.buf i).data = st.view b
  view : ∀ c, st'.view c = st.view c
  pinned : ∀ c, st'.Pinned c ↔ st.Pinned c

theorem bget_inv (ok : st.Ok chg) (h : st.bget ROOTDEV b = .ok (i, st')) :
    (st.buf i).busy = false ∧
      ((st.At b i ∧ st' = st.setBuf i { st.buf i with busy := true }) ∨
       ((∀ j, ¬st.At b j) ∧ (st.buf i).dirty = false ∧ st' = st.setBuf i
          { st.buf i with dev := ROOTDEV, blockno := b, busy := true, valid := false, dirty := false })) := by
  unfold bget at h
  split at h
  · rename_i j hj
    split at h
    · cases h
    · rename_i hb
      cases h
      exact ⟨by simpa using hb, Or.inl ⟨caches_iff.mp (List.find?_some hj), rfl⟩⟩
  · rename_i hnone
    have huncached : ∀ j, ¬st.At b j := fun j hj =>
      List.find?_eq_none.mp hnone j (ok.mem j) (caches_iff.mpr hj)
    split at h
    · rename_i j hj
      have hfree := List.find?_some hj
      simp only [Bool.and_eq_true, Bool.not_eq_true'] at hfree
      cases h
      exact ⟨hfree.1, Or.inr ⟨huncached, hfree.2, rfl⟩⟩
    · cases h

theorem iderw_read_inv (hv : (st.buf i).valid = false) (hd : (st.buf i).dirty = false) (h : st.iderw i = .ok st') :
    (st.buf i).blockno < st.disksize ∧
      st' = st.setBuf i { st.buf i with data := st.disk (st.buf i).blockno, valid := true } := by
  simp only [iderw, hv, hd, Bool.false_eq_true, false_and, ↓reduceIte] at h
  split at h
  · cases h
  · split at h
    · cases h
    · split at h
      · cases h
      · rename_i hsize
        exact ⟨by omega, by simpa only [hd] using (Outcome.ok.inj h).symm⟩

theorem Ok.read_hit (ok : st.Ok chg) (h : st.At b i) (hv : (st.buf i).valid = true) (hb : (st.buf i).busy = false) :
    (st.setBuf i { st.buf i with busy := true }).Ok chg ∧
      Read st (st.setBuf i { st.buf i with busy := true }) b i := by
  have ok' : (st.setBuf i { st.buf i with busy := true }).Ok chg :=
    ok.setBuf (fun _ => h.2 ▸ ok.other h) (ok.clean i) (ok.dirty i) (ok.root i) fun _ _ => id
  have hat := at_setBuf_same st i { st.buf i with busy := true } rfl rfl
  refine ⟨ok', rfl, rfl, fun j hj => setBuf_buf_of_ne _ hj, hb, by simp, by simpa using hv, (hat b i).mpr h,
    by simp [ok.view_of_valid h hv], fun c => ?_, fun c => ?_⟩
  · by_cases hc : c = b
    · subst hc
      rw [ok.view_of_valid h hv, ok'.view_of_valid ((hat c i).mpr h) (by simpa using hv)]
      simp
    · have hn : ¬st.At c i := fun hci => hc (hci.2.symm.trans h.2)
      exact ok.view_setBuf_of_ne ok' hn hn
  · have hdirty : ∀ j, ((st.setBuf i { st.buf i with busy := true }).buf j).dirty = (st.buf j).dirty := by
      intro j
      by_cases hji : j = i
      · subst hji
        simp
      · rw [setBuf_buf_of_ne _ hji]
    simp only [Pinned, hat, hdirty]

theorem Ok.read_fill (ok : st.Ok chg) (hchg : ¬chg i) (hb : (st.buf i).busy = false) (hdirty : (st.buf i).dirty = false)
    (h : (st.At b i ∧ (st.buf i).valid = false) ∨ ∀ j, ¬st.At b j) (hsize : b < st.disksize) {x : Buf}
    (hx : x = { busy := true, valid := true, dirty := false, dev := ROOTDEV, blockno := b, data := st.disk b }) :
    (st.setBuf i x).Ok chg ∧ Read st (st.setBuf i x) b i := by
  have hother : ∀ j, j ≠ i → ¬st.At b j := by
    rcases h with ⟨h, -⟩ | h
    · exact ok.other h
    · exact fun j _ => h j
  have hview : st.view b = st.disk b := by
    rcases h with ⟨h, hv⟩ | h
    · exact ok.view_of_invalid h hv
    · exact view_of_uncached h
  have ok' : (st.setBuf i x).Ok chg := by
    subst hx
    exact ok.setBuf (fun _ => hother) (fun _ _ _ => rfl) (fun hd => by simp at hd) (fun _ => ⟨rfl, hsize⟩)
      fun _ _ => id
  have hhere : (st.setBuf i x).At b i := by
    subst hx
    exact at_setBuf_self.mpr ⟨rfl, rfl⟩
  refine ⟨ok', rfl, rfl, fun j hj => setBuf_buf_of_ne _ hj, hb, by simp [hx], by simp [hx], hhere,
    by simp [hx, hview], fun c => ?_, fun c => ?_⟩
  · by_cases hc : c = b
    · subst hc
      rw [hview, ok'.view_of_valid hhere (by simp [hx])]
      simp [hx]
    · have hnew : ¬(x.dev = ROOTDEV ∧ x.blockno = c) := by
        subst hx
        exact fun hx => hc hx.2.symm
      by_cases hci : st.At c i
      · -- The recycled buffer was clean, so its block looks the same on disk.
        have hgone : ∀ j, ¬(st.setBuf i x).At c j := by
          intro j hj
          by_cases hji : j = i
          · subst hji
            exact hnew (at_setBuf_self.mp hj)
          · exact ok.other hci j hji ((at_setBuf_of_ne hji).mp hj)
        have hp : ¬st.Pinned c := by
          rintro ⟨j, hj, hd⟩
          rw [ok.uniq c j i hj hci, hdirty] at hd
          cases hd
        rw [view_of_uncached hgone, ok.view_eq_disk hp fun j hj => ok.uniq c j i hj hci ▸ hchg]
        rfl
      · exact ok.view_setBuf_of_ne ok' hci hnew
  · constructor
    · rintro ⟨j, hj, hd⟩
      by_cases hji : j = i
      · subst hji
        simp [hx] at hd
      · rw [setBuf_buf_of_ne _ hji] at hd
        exact ⟨j, (at_setBuf_of_ne hji).mp hj, hd⟩
    · rintro ⟨j, hj, hd⟩
      have hji : j ≠ i := by
        rintro rfl
        rw [hdirty] at hd
        cases hd
      exact ⟨j, (at_setBuf_of_ne hji).mpr hj, by rw [setBuf_buf_of_ne _ hji]; exact hd⟩

theorem setBuf_setBuf (x y : Buf) : (st.setBuf i x).setBuf i y = st.setBuf i y := by
  simp [setBuf]

theorem Ok.bread (ok : st.Ok chg) (hbusy : ∀ i, chg i → (st.buf i).busy = true)
    (h : st.bread ROOTDEV b = .ok (i, st')) : st'.Ok chg ∧ Read st st' b i := by
  unfold Store.bread at h
  obtain ⟨⟨i', st₁⟩, hget, h⟩ := Outcome.bind_eq_ok.mp h
  obtain ⟨hb, hcase⟩ := bget_inv ok hget
  have hchg : ¬chg i' := fun hc => by simp [hbusy i' hc] at hb
  simp only at h
  split at h
  · rename_i hv
    cases h
    rcases hcase with ⟨hat, rfl⟩ | ⟨-, -, rfl⟩
    · exact ok.read_hit hat (by simpa using hv) hb
    · simp at hv
  · rename_i hv
    obtain ⟨st₂, hrw, h⟩ := Outcome.bind_eq_ok.mp h
    cases h
    rcases hcase with ⟨hat, rfl⟩ | ⟨hnone, hd, rfl⟩
    · have hv' : (st.buf i).valid = false := by simpa using hv
      have hd : (st.buf i).dirty = false := by
        rw [Bool.eq_false_iff]
        intro hd
        rw [ok.dirty i hd] at hv'
        cases hv'
      obtain ⟨hsize, rfl⟩ := iderw_read_inv (by simpa using hv') (by simpa using hd) hrw
      rw [setBuf_setBuf]
      refine ok.read_fill hchg hb hd (Or.inl ⟨hat, hv'⟩) (by simpa [hat.2] using hsize) ?_
      simp [hat.1, hat.2, hd]
    · obtain ⟨hsize, rfl⟩ := iderw_read_inv (by simp) (by simp) hrw
      rw [setBuf_setBuf]
      refine ok.read_fill hchg hb hd (Or.inr hnone) (by simpa using hsize) ?_
      simp

/-! ### `bwrite` and `brelse` -/

/-- What filling buffer `i` of block `b` with `data` and writing it out gives. -/
structure Written (st st' : Store) (b : Nat) (i : BufIdx) (x : Block) : Prop where
  disk : st'.disk = update st.disk b x
  disksize : st'.disksize = st.disksize
  others : ∀ j, j ≠ i → st'.buf j = st.buf j
  busy : (st'.buf i).busy = (st.buf i).busy
  valid : (st'.buf i).valid = true
  here : st'.At b i
  data : (st'.buf i).data = x
  view : st'.view = update st.view b x
  pinned : ∀ c, st'.Pinned c ↔ c ≠ b ∧ st.Pinned c

theorem bwrite_setData_inv {data : Block} (h : (st.setData i data).bwrite i = .ok st') :
    (st.buf i).dev = ROOTDEV ∧ (st.buf i).blockno < st.disksize ∧
      st' = { st.setBuf i { st.buf i with data := data, dirty := false, valid := true } with
        disk := update st.disk (st.buf i).blockno data } := by
  simp only [bwrite, setData, setBuf_buf_self, setBuf_setBuf, iderw, Bool.true_eq_false, and_false, ↓reduceIte] at h
  split at h
  · cases h
  · split at h
    · cases h
    · rename_i hdev
      split at h
      · cases h
      · rename_i hsize
        refine ⟨by simpa using hdev, by simpa using hsize, ?_⟩
        simpa [setBuf_setBuf] using (Outcome.ok.inj h).symm

theorem Ok.fillWrite {chg' : BufIdx → Prop} {data : Block} (ok : st.Ok chg) (hat : st.At b i)
    (hchg : ∀ j, j ≠ i → chg j → chg' j) (h : (st.setData i data).bwrite i = .ok st') :
    st'.Ok chg' ∧ Written st st' b i data := by
  obtain ⟨hdev, hsize, rfl⟩ := bwrite_setData_inv h
  obtain rfl : (st.buf i).blockno = b := hat.2
  have hat' := at_setBuf_same st i { st.buf i with data := data, dirty := false, valid := true } rfl rfl
  -- A buffer of another block still agrees with the disk, which changed at this block only.
  have hne : ∀ j, j ≠ i → (st.buf j).valid = true → (st.buf j).blockno ≠ (st.buf i).blockno := fun j hj hv e =>
    ok.other hat j hj ⟨(ok.root j hv).1, e⟩
  have ok' : Ok { st.setBuf i { st.buf i with data := data, dirty := false, valid := true } with
      disk := update st.disk (st.buf i).blockno data } chg' :=
    { nodup := ok.nodup
      mem := ok.mem
      uniq := fun c j k hj hk => ok.uniq c j k ((hat' c j).mp hj) ((hat' c k).mp hk)
      clean := by
        intro j hv hd hc
        by_cases hji : j = i
        · subst hji
          simp
        · simp only [setBuf_buf_of_ne _ hji] at hv hd ⊢
          rw [update_of_ne (hne j hji hv)]
          exact ok.clean j hv hd fun h => hc (hchg j hji h)
      dirty := by
        intro j hd
        by_cases hji : j = i
        · subst hji
          simp
        · simp only [setBuf_buf_of_ne _ hji] at hd ⊢
          exact ok.dirty j hd
      root := by
        intro j hv
        by_cases hji : j = i
        · subst hji
          simpa using ⟨hdev, hsize⟩
        · simp only [setBuf_buf_of_ne _ hji] at hv ⊢
          exact ok.root j hv }
  refine ⟨ok', rfl, rfl, fun j hj => setBuf_buf_of_ne _ hj, by simp, by simp, (hat' _ i).mpr hat, by simp, ?_,
    fun c => ?_⟩
  · funext c
    by_cases hc : c = (st.buf i).blockno
    · subst hc
      rw [update_self, ok'.view_of_valid ((hat' _ i).mpr hat) (by simp)]
      simp
    · rw [update_of_ne hc]
      have hci : ¬st.At c i := fun h => hc h.2.symm
      refine ok.view_congr ok' (update_of_ne hc _ _) (hat' c) fun j hj => ?_
      have hji : j ≠ i := fun e => hci (e ▸ hj)
      simp [setBuf_buf_of_ne _ hji]
  · constructor
    · rintro ⟨j, hj, hd⟩
      have hji : j ≠ i := by
        rintro rfl
        simp at hd
      refine ⟨fun hc => ok.other hat j hji (hc ▸ (hat' c j).mp hj), j, (hat' c j).mp hj, ?_⟩
      simpa [setBuf_buf_of_ne _ hji] using hd
    · rintro ⟨hc, j, hj, hd⟩
      have hji : j ≠ i := by
        rintro rfl
        exact hc hj.2.symm
      exact ⟨j, (hat' c j).mpr hj, by simpa [setBuf_buf_of_ne _ hji] using hd⟩

/-- What `brelse` of buffer `i` gives: only its busy bit changes. -/
structure Released (st st' : Store) (i : BufIdx) : Prop where
  disk : st'.disk = st.disk
  disksize : st'.disksize = st.disksize
  others : ∀ j, j ≠ i → st'.buf j = st.buf j
  self : st'.buf i = { st.buf i with busy := false }
  view : ∀ c, st'.view c = st.view c
  pinned : ∀ c, st'.Pinned c ↔ st.Pinned c

theorem Ok.brelse (ok : st.Ok chg) (h : st.brelse i = .ok st') : st'.Ok chg ∧ Released st st' i := by
  unfold Store.brelse at h
  split at h
  · cases h
  · cases h
    have hat := at_setBuf_same st i { st.buf i with busy := false } rfl rfl
    have ok₁ : (st.setBuf i { st.buf i with busy := false }).Ok chg :=
      ok.setBuf (fun hd => ok.other ⟨hd, rfl⟩) (ok.clean i) (ok.dirty i) (ok.root i) fun _ _ => id
    have hperm : (i :: st.lru.erase i).Perm st.lru := (List.perm_cons_erase (ok.mem i)).symm
    have ok' : Ok { st.setBuf i { st.buf i with busy := false } with lru := i :: st.lru.erase i } chg :=
      { ok₁ with
        nodup := hperm.nodup_iff.mpr ok.nodup
        mem := fun j => hperm.mem_iff.mpr (ok.mem j) }
    have hbuf : ∀ j, ((st.setBuf i { st.buf i with busy := false }).buf j).valid = (st.buf j).valid ∧
        ((st.setBuf i { st.buf i with busy := false }).buf j).data = (st.buf j).data ∧
        ((st.setBuf i { st.buf i with busy := false }).buf j).dirty = (st.buf j).dirty := by
      intro j
      by_cases hji : j = i
      · subst hji
        simp
      · simp [setBuf_buf_of_ne _ hji]
    refine ⟨ok', rfl, rfl, fun j hj => setBuf_buf_of_ne _ hj, by simp, fun c => ?_, fun c => ?_⟩
    · exact ok.view_congr ok' rfl (hat c) fun j _ => ⟨(hbuf j).1, (hbuf j).2.1⟩
    · exact exists_congr fun j => and_congr (hat c j) (by rw [← (hbuf j).2.2])

/-! ### Changing and pinning a held buffer -/

theorem Ok.setData {chg' : BufIdx → Prop} (ok : st.Ok chg) (hat : st.At b i) (hv : (st.buf i).valid = true)
    (hi : chg' i) (hchg : ∀ j, j ≠ i → chg j → chg' j) (x : Block) :
    (st.setData i x).Ok chg' ∧ (st.setData i x).view = update st.view b x ∧
      (∀ c j, (st.setData i x).At c j ↔ st.At c j) ∧ ∀ c, (st.setData i x).Pinned c ↔ st.Pinned c := by
  have hat' := at_setBuf_same st i { st.buf i with data := x } rfl rfl
  have ok' : (st.setData i x).Ok chg' :=
    ok.setBuf (fun _ => hat.2 ▸ ok.other hat) (fun _ _ hn => absurd hi hn) (ok.dirty i) (ok.root i) hchg
  have hdirty : ∀ j, ((st.setData i x).buf j).dirty = (st.buf j).dirty := by
    intro j
    by_cases hji : j = i
    · subst hji
      simp [Store.setData]
    · simp [Store.setData, setBuf_buf_of_ne _ hji]
  refine ⟨ok', ?_, hat', fun c => exists_congr fun j => and_congr (hat' c j) (by rw [hdirty])⟩
  funext c
  by_cases hc : c = b
  · subst hc
    rw [update_self, ok'.view_of_valid ((hat' c i).mpr hat) (by simpa [Store.setData] using hv)]
    simp [Store.setData]
  · have hci : ¬st.At c i := fun h => hc (h.2.symm.trans hat.2)
    rw [update_of_ne hc]
    exact ok.view_setBuf_of_ne ok' hci hci

theorem Ok.pin {chg' : BufIdx → Prop} (ok : st.Ok chg) (hat : st.At b i) (hv : (st.buf i).valid = true)
    (hchg : ∀ j, j ≠ i → chg j → chg' j) :
    (st.setBuf i { st.buf i with dirty := true }).Ok chg' ∧
      (st.setBuf i { st.buf i with dirty := true }).view = st.view ∧
      (∀ c j, (st.setBuf i { st.buf i with dirty := true }).At c j ↔ st.At c j) ∧
      ∀ c, (st.setBuf i { st.buf i with dirty := true }).Pinned c ↔ c = b ∨ st.Pinned c := by
  have hat' := at_setBuf_same st i { st.buf i with dirty := true } rfl rfl
  have ok' : (st.setBuf i { st.buf i with dirty := true }).Ok chg' :=
    ok.setBuf (fun _ => hat.2 ▸ ok.other hat) (fun _ hd => by simp at hd) (fun _ => hv) (ok.root i) hchg
  refine ⟨ok', funext fun c => ok.view_congr ok' rfl (hat' c) fun j _ => ?_, hat', fun c => ?_⟩
  · by_cases hji : j = i
    · subst hji
      simp
    · simp [setBuf_buf_of_ne _ hji]
  · constructor
    · rintro ⟨j, hj, hd⟩
      by_cases hji : j = i
      · subst hji
        exact Or.inl (((hat' c j).mp hj).2.symm.trans hat.2)
      · rw [setBuf_buf_of_ne _ hji] at hd
        exact Or.inr ⟨j, (hat' c j).mp hj, hd⟩
    · rintro (rfl | ⟨j, hj, hd⟩)
      · exact ⟨i, (hat' c i).mpr hat, by simp⟩
      · refine ⟨j, (hat' c j).mpr hj, ?_⟩
        by_cases hji : j = i
        · subst hji
          simp
        · rwa [setBuf_buf_of_ne _ hji]

theorem binit_ok (disk : Nat → Block) (disksize : Nat) :
    (binit disk disksize).Ok chg ∧ (binit disk disksize).view = disk ∧
      (∀ c j, ¬(binit disk disksize).At c j) ∧ ∀ c, ¬(binit disk disksize).Pinned c := by
  have hat : ∀ c j, ¬(binit disk disksize).At c j := by
    rintro c j ⟨hd, -⟩
    simp [binit] at hd
  refine ⟨⟨?_, fun i => by simp [binit], fun c i j hi => absurd hi (hat c i), fun i hv => by simp [binit] at hv,
    fun i hd => by simp [binit] at hd, fun i hv => by simp [binit] at hv⟩, funext fun c => view_of_uncached (hat c), hat,
    fun c ⟨j, hj, _⟩ => hat c j hj⟩
  exact List.nodup_reverse.mpr (List.nodup_finRange NBUF)

end Store
end Xv6
