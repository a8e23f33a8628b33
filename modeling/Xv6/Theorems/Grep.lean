import Mathlib.Data.List.Basic
import Xv6.Grep
import Xv6.Theorems.Memmove

/-! The matcher of `grep` finds what the patterns stand for, and `grep` the lines in which it does. -/

namespace Xv6
open Function (update_of_ne update_self)
namespace Grep
variable {c : UInt8} {re text x rest : List UInt8}

/-! ### Patterns -/

inductive Item where
  | one (c : UInt8)
  | star (c : UInt8)
  | eol

/-- The items of a pattern, read from the left. -/
def items (re : List UInt8) : List Item :=
  match re with
  | [] => []
  | c :: re =>
    if re.head? = some STAR then .star c :: items re.tail
    else if c = DOLLAR ∧ re = [] then [.eol]
    else .one c :: items re
termination_by re.length

/-- The character is what `c` stands for. -/
def Fits (c d : UInt8) : Prop := c = DOT ∨ c = d

/-- The item stands for `x`, where `rest` is what follows in the text. -/
def Item.Stands (x rest : List UInt8) : Item → Prop
  | .one c => ∃ d, x = [d] ∧ Fits c d
  | .star c => ∀ d ∈ x, Fits c d
  | .eol => x = [] ∧ rest = []

/-- So do the items, one behind the other. -/
def Stand : List Item → List UInt8 → List UInt8 → Prop
  | [], x, _ => x = []
  | i :: is, x, rest => ∃ y z, x = y ++ z ∧ i.Stands y (z ++ rest) ∧ Stand is z rest

theorem matchstar_iff : matchstar c re text = true ↔ ∃ y z, text = y ++ z ∧ (∀ d ∈ y, Fits c d) ∧ matchhere re z = true := by
  induction text with
  | nil =>
    rw [matchstar, Bool.or_false]
    constructor
    · exact fun h => ⟨[], [], rfl, List.forall_mem_nil _, h⟩
    · rintro ⟨y, z, hyz, -, h⟩
      rwa [(List.append_eq_nil_iff.mp hyz.symm).2] at h
  | cons d text ih =>
    rw [matchstar, Bool.or_eq_true]
    constructor
    · rintro (h | h)
      · exact ⟨[], d :: text, rfl, List.forall_mem_nil _, h⟩
      · split at h
        · rename_i hfits
          obtain ⟨y, z, rfl, hy, hz⟩ := ih.mp h
          refine ⟨d :: y, z, rfl, List.forall_mem_cons.mpr ⟨?_, hy⟩, hz⟩
          exact hfits.elim (fun heq => .inr heq.symm) .inl
        · cases h
    · rintro ⟨y, z, hyz, hy, hz⟩
      cases y with
      | nil =>
        rw [List.nil_append] at hyz
        exact .inl (hyz ▸ hz)
      | cons d' y =>
        obtain ⟨rfl, rfl⟩ := List.cons.inj hyz
        obtain ⟨hd, hy⟩ := List.forall_mem_cons.mp hy
        rw [if_pos (hd.elim .inr fun heq => .inl heq.symm)]
        exact .inr (ih.mpr ⟨y, z, rfl, hy, hz⟩)

theorem matchhere_iff : matchhere re text = true ↔ ∃ x rest, text = x ++ rest ∧ Stand (items re) x rest := by
  induction re using items.induct generalizing text with
  | case1 =>
    rw [matchhere, items]
    exact iff_of_true rfl ⟨[], text, rfl, rfl⟩
  | case2 c re hstar ih =>
    rw [matchhere.eq_def, items]
    dsimp only
    rw [if_pos hstar, if_pos hstar, matchstar_iff]
    constructor
    · rintro ⟨y, z, rfl, hy, hz⟩
      obtain ⟨x, rest, rfl, hx⟩ := ih.mp hz
      exact ⟨y ++ x, rest, (List.append_assoc ..).symm, y, x, rfl, hy, hx⟩
    · rintro ⟨_, rest, rfl, y, z, rfl, hy, hz⟩
      exact ⟨y, z ++ rest, List.append_assoc .., hy, ih.mpr ⟨z, rest, rfl, hz⟩⟩
  | case3 c re hstar hend =>
    rw [matchhere.eq_def, items]
    dsimp only
    rw [if_neg hstar, if_neg hstar, if_pos hend, if_pos hend, List.isEmpty_iff]
    constructor
    · rintro rfl
      exact ⟨[], [], rfl, [], [], rfl, ⟨rfl, rfl⟩, rfl⟩
    · rintro ⟨_, rest, rfl, _, _, rfl, ⟨rfl, hrest⟩, rfl⟩
      exact hrest
  | case4 c re hstar hend ih =>
    rw [matchhere.eq_def, items]
    dsimp only
    rw [if_neg hstar, if_neg hstar, if_neg hend, if_neg hend]
    cases text with
    | nil =>
      refine iff_of_false Bool.false_ne_true ?_
      rintro ⟨_, rest, htext, _, z, rfl, ⟨d, rfl, -⟩, -⟩
      cases htext
    | cons d text =>
      dsimp only
      constructor
      · intro h
        split at h
        · rename_i hfits
          obtain ⟨x, rest, rfl, hx⟩ := ih.mp h
          exact ⟨d :: x, rest, rfl, [d], x, rfl, ⟨d, rfl, hfits⟩, hx⟩
        · cases h
      · rintro ⟨_, rest, htext, _, z, rfl, ⟨d', rfl, hfits⟩, hz⟩
        obtain ⟨rfl, rfl⟩ := List.cons.inj htext
        exact (if_pos hfits).trans (ih.mpr ⟨z, rest, rfl, hz⟩)

theorem matchAny_iff : matchAny re text = true ↔ ∃ pre z, text = pre ++ z ∧ matchhere re z = true := by
  induction text with
  | nil =>
    constructor
    · exact fun h => ⟨[], [], rfl, h⟩
    · rintro ⟨pre, z, hz, h⟩
      rwa [(List.append_eq_nil_iff.mp hz.symm).2] at h
  | cons d text ih =>
    rw [matchAny, Bool.or_eq_true, ih]
    constructor
    · rintro (h | ⟨pre, z, rfl, h⟩)
      · exact ⟨[], d :: text, rfl, h⟩
      · exact ⟨d :: pre, z, rfl, h⟩
    · rintro ⟨pre, z, hz, h⟩
      cases pre with
      | nil => exact .inl ((List.nil_append z ▸ hz) ▸ h)
      | cons d' pre =>
        obtain ⟨rfl, rfl⟩ := List.cons.inj hz
        exact .inr ⟨pre, z, rfl, h⟩

/-- `match` finds a part of the text that the items of the pattern stand for, at its start if the pattern begins with `^`. -/
theorem match_iff (re text : List UInt8) : matchRe re text = true ↔
    if re.head? = some CARET then ∃ x rest, text = x ++ rest ∧ Stand (items re.tail) x rest
    else ∃ pre x rest, text = pre ++ x ++ rest ∧ Stand (items re) x rest := by
  rw [matchRe]
  split
  · exact matchhere_iff
  · rw [matchAny_iff]
    constructor
    · rintro ⟨pre, z, rfl, hz⟩
      obtain ⟨x, rest, rfl, hx⟩ := matchhere_iff.mp hz
      exact ⟨pre, x, rest, (List.append_assoc ..).symm, hx⟩
    · rintro ⟨pre, x, rest, rfl, hx⟩
      exact ⟨pre, x ++ rest, List.append_assoc .., matchhere_iff.mpr ⟨x, rest, rfl, hx⟩⟩

/-! ### Lines -/

variable {mem buf : Mem} {l w : List UInt8} {ls : List (List UInt8)} {p : Nat}

/-- The string `w` is at `p`. -/
structure Spells (mem : Mem) (p : Nat) (w : List UInt8) : Prop where
  byte : ∀ k (hk : k < w.length), mem (p + k) = w[k]
  nul : mem (p + w.length) = 0
  clean : 0 ∉ w

theorem Spells.tail {b : UInt8} (h : Spells mem p (b :: w)) : mem p = b ∧ b ≠ 0 ∧ Spells mem (p + 1) w := by
  obtain ⟨hb, hw⟩ := not_or.mp (List.mem_cons.not.mp h.clean)
  refine ⟨h.byte 0 (Nat.succ_pos _), Ne.symm hb, fun k hk => ?_, ?_, hw⟩
  · rw [Nat.add_right_comm]
    exact h.byte (k + 1) (Nat.succ_lt_succ hk)
  · rw [Nat.add_right_comm]
    exact h.nul

theorem Spells.drop (h : Spells mem p (l ++ w)) : Spells mem (p + l.length) w := by
  induction l generalizing p with
  | nil => exact h
  | cons b l ih =>
    rw [List.length_cons, Nat.add_comm l.length, ← Nat.add_assoc]
    exact ih h.tail.2.2

theorem Spells.update {q : Nat} (h : Spells mem p w) (hq : q < p) (b : UInt8) : Spells (Function.update mem q b) p w := by
  refine ⟨fun k hk => ?_, ?_, h.clean⟩
  · rw [update_of_ne (by omega), h.byte k hk]
  · rw [update_of_ne (by omega), h.nul]

theorem Spells.strchr_none {left : Nat} (h : Spells mem p w) (hc : c ∉ w) (hleft : w.length < left) : strchr mem c left p = none := by
  induction w generalizing p left with
  | nil =>
    cases left with
    | zero => cases hleft
    | succ left => exact if_pos h.nul
  | cons b w ih =>
    obtain ⟨hb, hne, hw⟩ := h.tail
    obtain ⟨hbc, hcw⟩ := not_or.mp (List.mem_cons.not.mp hc)
    cases left with
    | zero => cases hleft
    | succ left =>
      rw [strchr, hb, if_neg hne, if_neg (Ne.symm hbc)]
      exact ih hw hcw (Nat.lt_of_succ_lt_succ hleft)

theorem Spells.strchr_some {left : Nat} (h : Spells mem p (l ++ c :: w)) (hc : c ∉ l) (hleft : l.length < left) :
    strchr mem c left p = some (p + l.length) := by
  induction l generalizing p left with
  | nil =>
    obtain ⟨hb, hne, -⟩ := h.tail
    cases left with
    | zero => cases hleft
    | succ left => rw [strchr, hb, if_neg hne, if_pos rfl, List.length_nil, Nat.add_zero]
  | cons b l ih =>
    obtain ⟨hb, hne, hl⟩ := h.tail
    obtain ⟨hbc, hcl⟩ := not_or.mp (List.mem_cons.not.mp hc)
    cases left with
    | zero => cases hleft
    | succ left =>
      rw [strchr, hb, if_neg hne, if_neg (Ne.symm hbc), ih hl hcl (Nat.lt_of_succ_lt_succ hleft), List.length_cons, Nat.add_right_comm, Nat.add_assoc]

theorem Spells.string_eq {left : Nat} (h : Spells mem p w) (hleft : w.length < left) : string mem left p = w := by
  induction w generalizing p left with
  | nil =>
    cases left with
    | zero => cases hleft
    | succ left => exact if_pos h.nul
  | cons b w ih =>
    obtain ⟨hb, hne, hw⟩ := h.tail
    cases left with
    | zero => cases hleft
    | succ left => rw [string, hb, if_neg hne, ih hw (Nat.lt_of_succ_lt_succ hleft)]

theorem Spells.cut {b : UInt8} (h : Spells mem p (l ++ b :: w)) : Spells (Function.update mem (p + l.length) 0) p l := by
  refine ⟨fun k hk => ?_, update_self .., fun hl => h.clean (List.mem_append_left _ hl)⟩
  rw [update_of_ne (by omega), h.byte k (by rw [List.length_append]; omega), List.getElem_append_left hk]

theorem Spells.map_range (h : Spells mem p (l ++ w)) : (List.range l.length).map (fun k => mem (p + k)) = l := by
  refine List.ext_getElem (by simp) fun k hk hk' => ?_
  rw [List.getElem_map, List.getElem_range, h.byte k (by rw [List.length_append]; omega), List.getElem_append_left hk']

def join (ls : List (List UInt8)) : List UInt8 := (ls.map (· ++ [NEWLINE])).flatten

theorem join_cons (l : List UInt8) (ls : List (List UInt8)) : join (l :: ls) = l ++ NEWLINE :: join ls := by
  rw [join, List.map_cons, List.flatten_cons, List.append_assoc]
  rfl

theorem Spells.lines (pattern : List UInt8) {left : Nat} (h : Spells buf p (join ls ++ rest)) (hls : ∀ l ∈ ls, NEWLINE ∉ l) (hrest : NEWLINE ∉ rest)
    (hleft : ls.length < left) (hsize : (join ls ++ rest).length < SIZE) : ∃ buf', Spells buf' (p + (join ls).length) rest ∧
      Grep.lines pattern left buf p = (buf', p + (join ls).length, join (ls.filter (matchRe pattern))) := by
  induction ls generalizing buf p left with
  | nil =>
    refine ⟨buf, h, ?_⟩
    cases left with
    | zero => cases hleft
    | succ left =>
      rw [Grep.lines, h.strchr_none hrest hsize]
      rfl
  | cons l ls ih =>
    obtain ⟨hl, hls⟩ := List.forall_mem_cons.mp hls
    rw [join_cons, List.append_assoc, List.cons_append] at h hsize
    have hlen : (join (l :: ls)).length = l.length + 1 + (join ls).length := by
      rw [join_cons, List.length_append, List.length_cons]
      omega
    rw [List.length_append, List.length_cons] at hsize
    have htail : Spells buf (p + l.length + 1) (join ls ++ rest) := h.drop.tail.2.2
    have hnew : Function.update (Function.update buf (p + l.length) 0) (p + l.length) NEWLINE = buf := by
      rw [Function.update_idem, ← h.drop.tail.1, Function.update_eq_self]
    cases left with
    | zero => cases hleft
    | succ left =>
      have hleft := Nat.lt_of_succ_lt_succ hleft
      rw [Grep.lines, h.strchr_some hl (by omega)]
      dsimp only
      rw [h.cut.string_eq (by omega), hnew, hlen, List.filter_cons, ← Nat.add_assoc, ← Nat.add_assoc]
      split
      · obtain ⟨buf', hbuf', hlines⟩ := ih htail hls hleft (by omega)
        refine ⟨buf', hbuf', ?_⟩
        rw [hlines, join_cons, show p + l.length + 1 - p = l.length + 1 by omega, List.range_succ, List.map_append, h.map_range]
        simp [h.drop.tail.1]
      · exact ih (htail.update (Nat.lt_succ_self _) 0) hls hleft (by omega)

/-! ### Reads -/

variable {s : Grep} {bs v : List UInt8} {reads : List (List UInt8)}

theorem mem_join {b : UInt8} : b ∈ join ls ↔ ∃ l ∈ ls, b ∈ l ∨ b = NEWLINE := by simp [join]

theorem length_le_join (ls : List (List UInt8)) : ls.length ≤ (join ls).length := by
  induction ls with
  | nil => exact Nat.zero_le _
  | cons l ls ih =>
    rw [join_cons, List.length_append, List.length_cons, List.length_cons]
    omega

theorem join_cut (h : join ls = w ++ v) (hls : ∀ l ∈ ls, NEWLINE ∉ l) :
    ∃ ls₁ ls₂ rest, ls = ls₁ ++ ls₂ ∧ w = join ls₁ ++ rest ∧ join ls₂ = rest ++ v ∧ NEWLINE ∉ rest := by
  induction ls generalizing w with
  | nil => exact ⟨[], [], w, rfl, rfl, h, fun hw => nomatch (h ▸ List.mem_append_left v hw : NEWLINE ∈ join [])⟩
  | cons l ls ih =>
    obtain ⟨hl, hls⟩ := List.forall_mem_cons.mp hls
    rw [join_cons, List.append_cons] at h
    rcases List.append_eq_append_iff.mp h with ⟨u, rfl, hu⟩ | ⟨u, hu, hv⟩
    · obtain ⟨ls₁, ls₂, rest, rfl, rfl, hrest⟩ := ih hu hls
      refine ⟨l :: ls₁, ls₂, rest, rfl, ?_, hrest⟩
      rw [join_cons, List.append_assoc, List.append_assoc]
      rfl
    · rcases List.eq_nil_or_concat' u with rfl | ⟨u, b, rfl⟩
      · refine ⟨[l], ls, [], rfl, ?_, hv.symm, nofun⟩
        rw [List.append_nil] at hu
        rw [join_cons, ← hu, List.append_assoc]
        rfl
      · rw [← List.append_assoc] at hu
        obtain ⟨rfl, hb⟩ := List.append_inj' hu rfl
        obtain rfl := List.singleton_inj.mp hb
        refine ⟨[], (w ++ u) :: ls, w, rfl, rfl, ?_, fun hw => hl (List.mem_append_left _ hw)⟩
        rw [join_cons, hv]
        simp

/-- The buffer holds the beginning of a line. -/
structure Carries (s : Grep) (w : List UInt8) : Prop where
  byte : ∀ k (hk : k < w.length), s.buf k = w[k]
  m : s.m = w.length

theorem Carries.read (h : s.Carries w) (hclean : 0 ∉ w ++ bs) :
    Spells (Function.update (fun a => if s.m ≤ a ∧ a < s.m + bs.length then bs.getD (a - s.m) 0 else s.buf a) (s.m + bs.length) 0) 0 (w ++ bs) := by
  refine ⟨fun k hk => ?_, ?_, hclean⟩
  · rw [List.length_append, ← h.m] at hk
    rw [Nat.zero_add, update_of_ne (Nat.ne_of_lt hk), List.getElem_append]
    by_cases hkw : k < w.length
    · rw [dif_pos hkw, if_neg (by rw [h.m]; omega), h.byte k hkw]
    · rw [dif_neg hkw, if_pos ⟨by rw [h.m]; omega, hk⟩]
      simp only [h.m] at hk ⊢
      rw [List.getD_eq_getElem?_getD, List.getElem?_eq_getElem (by omega), Option.getD_some]
  · rw [Nat.zero_add, List.length_append, h.m, update_self]

theorem Carries.round (pattern : List UInt8) (h : s.Carries w) (hlen : bs.length ≤ SIZE - s.m - 1) (hbs : bs ≠ []) (hsplit : w ++ bs = join ls ++ rest)
    (hls : ∀ l ∈ ls, NEWLINE ∉ l) (hrest : NEWLINE ∉ rest) (hne : ls ≠ []) (hclean : 0 ∉ w ++ bs) :
    (Grep.round pattern s bs).Carries rest ∧ (Grep.round pattern s bs).out = s.out ++ join (ls.filter (matchRe pattern)) := by
  have hpos := List.length_pos_iff.mpr hbs
  have hlt : s.m + bs.length < 1024 := by
    simp only [SIZE] at hlen
    omega
  have hread := h.read hclean
  have htotal : s.m + bs.length = (join ls).length + rest.length := by
    rw [h.m, ← List.length_append, hsplit, List.length_append]
  have hcount := length_le_join ls
  have hlines := List.length_pos_iff.mpr hne
  rw [hsplit] at hread
  obtain ⟨buf', hbuf', hloop⟩ := hread.lines pattern hls hrest (by omega : ls.length < 1024)
    (by rw [List.length_append, ← htotal]; exact hlt)
  rw [Nat.zero_add] at hbuf' hloop
  have hp : (join ls).length ≠ 0 := by omega
  have hm : 0 < s.m + bs.length := by omega
  rw [Grep.round]
  dsimp only
  rw [hloop]
  rw [if_neg hp, if_pos hm]
  have hleft : s.m + bs.length - (join ls).length = rest.length := by omega
  refine ⟨⟨fun k hk => ?_, hleft⟩, rfl⟩
  have hmoved : Moved buf' 0 (join ls).length rest.length (copyUp rest.length buf' 0 (join ls).length) :=
    copyUp_moved (by omega) (by omega) (by omega)
  have hcopied := hmoved.copied k hk
  rw [Nat.zero_add, hbuf'.byte k hk] at hcopied
  simp only [Ulib.memmove, hleft, Int.toNat_natCast]
  exact hcopied

theorem Carries.grep {pattern : List UInt8} (h : s.Carries w) (hreads : Reads pattern s reads) (hinput : join ls = w ++ reads.flatten)
    (hls : ∀ l ∈ ls, 0 ∉ l ∧ NEWLINE ∉ l) (hw : NEWLINE ∉ w) (hlines : ∀ bs ∈ reads, NEWLINE ∈ bs) :
    (Grep.grep pattern s reads).out = s.out ++ join (ls.filter (matchRe pattern)) := by
  induction reads generalizing s w ls with
  | nil =>
    rw [List.flatten_nil, List.append_nil] at hinput
    cases ls with
    | nil => exact (List.append_nil _).symm
    | cons l ls => exact absurd (hinput ▸ mem_join.mpr ⟨l, List.mem_cons_self, .inr rfl⟩) hw
  | cons bs reads ih =>
    obtain ⟨hne, hlen, hreads⟩ := hreads
    obtain ⟨hbs, hlines⟩ := List.forall_mem_cons.mp hlines
    rw [List.flatten_cons, ← List.append_assoc] at hinput
    have hclean : 0 ∉ w ++ bs := fun hzero => by
      obtain ⟨l, hl, hl'⟩ := mem_join.mp (hinput ▸ List.mem_append_left _ hzero)
      exact hl'.elim (hls l hl).1 nofun
    obtain ⟨ls₁, ls₂, rest, rfl, hcut, hinput, hrest⟩ := join_cut hinput fun l hl => (hls l hl).2
    obtain ⟨hls₁, hls₂⟩ := List.forall_mem_append.mp hls
    have hne₁ : ls₁ ≠ [] := by
      rintro rfl
      have hmem : NEWLINE ∈ join [] ++ rest := hcut ▸ List.mem_append_right _ hbs
      exact hrest hmem
    obtain ⟨hround, hout⟩ := h.round pattern hlen hne hcut (fun l hl => (hls₁ l hl).2) hrest hne₁ hclean
    rw [Grep.grep, List.foldl_cons]
    refine (ih hround hreads hinput hls₂ hrest hlines).trans ?_
    rw [hout, List.filter_append, List.append_assoc]
    simp [join]

/-! ### Reads without a newline -/

theorem exists_join (v : List UInt8) : ∃ ls rest, v = join ls ++ rest ∧ (∀ l ∈ ls, NEWLINE ∉ l) ∧ NEWLINE ∉ rest := by
  induction v with
  | nil => exact ⟨[], [], rfl, by simp, by simp⟩
  | cons b v ih =>
    obtain ⟨ls, rest, rfl, hls, hrest⟩ := ih
    by_cases hb : b = NEWLINE
    · exact ⟨[] :: ls, rest, by rw [join_cons, hb]; rfl, List.forall_mem_cons.mpr ⟨by simp, hls⟩, hrest⟩
    · cases ls with
      | nil => exact ⟨[], b :: rest, rfl, by simp, List.not_mem_cons_of_ne_of_not_mem (Ne.symm hb) hrest⟩
      | cons l ls =>
        obtain ⟨hl, hls⟩ := List.forall_mem_cons.mp hls
        refine ⟨(b :: l) :: ls, rest, ?_, List.forall_mem_cons.mpr ⟨List.not_mem_cons_of_ne_of_not_mem (Ne.symm hb) hl, hls⟩, hrest⟩
        rw [join_cons, join_cons]
        rfl

theorem length_join_filter_le (P : List UInt8 → Bool) (ls : List (List UInt8)) : (join (ls.filter P)).length ≤ (join ls).length := by
  induction ls with
  | nil => exact Nat.le_refl _
  | cons l ls ih =>
    rw [List.filter_cons, join_cons, List.length_append, List.length_cons]
    split
    · rw [join_cons, List.length_append, List.length_cons]
      omega
    · omega

theorem Carries.drops (pattern : List UInt8) (h : s.Carries w) (hlen : bs.length ≤ SIZE - s.m - 1) (hbs : bs ≠ []) (hw : NEWLINE ∉ w ++ bs)
    (hclean : 0 ∉ w ++ bs) : (Grep.round pattern s bs).Carries [] ∧ (Grep.round pattern s bs).out = s.out := by
  have hpos := List.length_pos_iff.mpr hbs
  have hread : Spells _ 0 (join [] ++ (w ++ bs)) := h.read hclean
  obtain ⟨buf', -, hloop⟩ := hread.lines pattern (by simp) hw (by decide : ([] : List (List UInt8)).length < SIZE)
    (by simp only [join, List.map_nil, List.flatten_nil, List.nil_append, List.length_append, ← h.m, SIZE] at hlen ⊢; omega)
  rw [Grep.round]
  dsimp only
  rw [hloop]
  exact ⟨⟨fun k hk => absurd hk (Nat.not_lt_zero k), rfl⟩, List.append_nil _⟩

/-- A read in which no line ends makes the output shorter than the input. -/
theorem Carries.length_grep {pattern : List UInt8} (h : s.Carries w) (hreads : Reads pattern s reads) (hw : NEWLINE ∉ w)
    (hclean : 0 ∉ w ++ reads.flatten) : (reads.filter (NEWLINE ∉ ·)).length + (Grep.grep pattern s reads).out.length ≤
      s.out.length + w.length + reads.flatten.length := by
  induction reads generalizing s w with
  | nil =>
    show 0 + s.out.length ≤ _
    omega
  | cons bs reads ih =>
    obtain ⟨hne, hlen, hreads⟩ := hreads
    rw [List.flatten_cons, ← List.append_assoc] at hclean
    have hclean₁ : 0 ∉ w ++ bs := fun h0 => hclean (List.mem_append_left _ h0)
    rw [Grep.grep, List.foldl_cons, List.flatten_cons, List.length_append]
    by_cases hbs : NEWLINE ∈ bs
    · obtain ⟨ls, rest, hsplit, hls, hrest⟩ := exists_join (w ++ bs)
      have hlines : ls ≠ [] := by
        rintro rfl
        exact hrest (show NEWLINE ∈ join [] ++ rest from hsplit ▸ List.mem_append_right w hbs)
      obtain ⟨hround, hout⟩ := h.round pattern hlen hne hsplit hls hrest hlines hclean₁
      have hthen := ih hround hreads hrest (fun h0 => hclean (by rw [hsplit]; simp only [List.mem_append] at h0 ⊢; tauto))
      have hcut := length_join_filter_le (matchRe pattern) ls
      have hsum := congrArg List.length hsplit
      rw [hout] at hthen
      rw [List.filter_cons_of_neg (by simpa using hbs)]
      simp only [List.length_append, Grep.grep] at hthen hsum ⊢
      omega
    · obtain ⟨hround, hout⟩ := h.drops pattern hlen hne (by simp [hw, hbs]) hclean₁
      have hthen := ih hround hreads (by simp) (fun h0 => hclean (List.mem_append_right _ h0))
      have hpos := List.length_pos_iff.mpr hne
      rw [hout] at hthen
      rw [List.filter_cons_of_pos (by simpa using hbs), List.length_cons]
      simp only [List.length_nil, Grep.grep] at hthen ⊢
      omega

theorem matchRe_nil (text : List UInt8) : matchRe [] text = true := by
  rw [matchRe, if_neg (by simp)]
  cases text <;> simp [matchAny, matchhere]

/-- If a line ends in every read, `grep` writes the lines that match. For the empty pattern, which all lines match, this is also
    necessary. -/
theorem grep_lines (buf : Mem) (hls : ∀ l ∈ ls, 0 ∉ l ∧ NEWLINE ∉ l) (hinput : reads.flatten = join ls) :
    (∀ pattern, Reads pattern { buf := buf } reads → (∀ bs ∈ reads, NEWLINE ∈ bs) →
      (Grep.grep pattern { buf := buf } reads).out = join (ls.filter (matchRe pattern))) ∧
    (Reads [] { buf := buf } reads →
      ((Grep.grep [] { buf := buf } reads).out = join (ls.filter (matchRe [])) ↔ ∀ bs ∈ reads, NEWLINE ∈ bs)) := by
  have hstart : Carries { buf := buf } [] := ⟨fun k hk => absurd hk (Nat.not_lt_zero k), rfl⟩
  have henough : ∀ pattern, Reads pattern { buf := buf } reads → (∀ bs ∈ reads, NEWLINE ∈ bs) →
      (Grep.grep pattern { buf := buf } reads).out = join (ls.filter (matchRe pattern)) := fun pattern hreads hlines =>
    hstart.grep hreads hinput.symm hls (by simp) hlines
  refine ⟨henough, fun hreads => ⟨fun hout => ?_, henough [] hreads⟩⟩
  have hclean : 0 ∉ [] ++ reads.flatten := by
    rw [List.nil_append, hinput, mem_join]
    rintro ⟨l, hl, h0 | h0⟩
    · exact (hls l hl).1 h0
    · cases h0
  have hshort := hstart.length_grep hreads (by simp) hclean
  rw [hout, List.filter_eq_self.mpr fun l _ => matchRe_nil l, hinput] at hshort
  have hnone : (reads.filter (NEWLINE ∉ ·)).length = 0 := by
    simp only [List.length_nil] at hshort
    omega
  rw [List.length_eq_zero_iff, List.filter_eq_nil_iff] at hnone
  intro bs hbs
  simpa using hnone bs hbs

/-- Two lines, of which the second ends in another read. -/
theorem grep_lines_two : Reads [98] { buf := fun _ => 0 } [[97, 98, 10, 99], [10]] ∧
    (grep [98] { buf := fun _ => 0 } [[97, 98, 10, 99], [10]]).out = join ([[97, 98], [99]].filter (matchRe [98])) := by
  have hstart : Carries { buf := fun _ => 0 } [] := ⟨nofun, rfl⟩
  have hcut : [] ++ [97, 98, 10, 99] = join [[97, 98]] ++ [99] := rfl
  have hfirst := (hstart.round [98] (by decide) (by decide) hcut (by decide) (by decide) (by decide) (by decide)).1
  have hreads : Reads [98] { buf := fun _ => 0 } [[97, 98, 10, 99], [10]] := ⟨by decide, by decide, by decide, by rw [hfirst.m]; decide, trivial⟩
  have hls : ∀ l ∈ [[97, 98], [99]], (0 : UInt8) ∉ l ∧ NEWLINE ∉ l := by decide
  have hinput : [[97, 98, 10, 99], [10]].flatten = join [[97, 98], [99]] := rfl
  exact ⟨hreads, (grep_lines (fun _ => 0) hls hinput).1 [98] hreads (by decide)⟩

/-- The beginning of a line is dropped if no line ends in the read. -/
theorem grep_drops : Reads [97] { buf := fun _ => 0 } [[97], [98, 10]] ∧ [[97], [98, 10]].flatten = join [[97, 98]] ∧
    matchRe [97] [97, 98] = true ∧ (grep [97] { buf := fun _ => 0 } [[97], [98, 10]]).out = [] := by
  have hfirst : Carries (Grep.round [97] { buf := fun _ => 0 } [97]) [] := ⟨nofun, by decide⟩
  have hcut : [] ++ [98, 10] = join [[98]] ++ [] := rfl
  have hsecond := (hfirst.round [97] (by decide) (by decide) hcut (by decide) (by decide) (by decide) (by decide)).2
  refine ⟨⟨by decide, by decide, by decide, by decide, trivial⟩, rfl, ?_, hsecond.trans ?_⟩
  · simp [matchRe, matchAny, matchhere, CARET, DOLLAR]
  · simp [matchRe, matchAny, matchhere, CARET, DOLLAR, DOT]
    decide

end Grep
end Xv6
