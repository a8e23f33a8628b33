import Xv6.Console

/-! The line discipline of the console: what reads return is what was typed, after editing. -/

namespace Xv6
namespace Console
open Machine

/-! ### What is typed -/

/-- The lines that have been typed, with a control-D as the character it is, how many characters of them reads have taken,
    and the line that is being edited. -/
structure Line where
  lines : List UInt8 := []
  taken : Nat := 0
  edit : List UInt8 := []

namespace Line

def unread (l : Line) : List UInt8 := l.lines.drop l.taken

def commit (l : Line) : Line := { l with lines := l.lines ++ l.edit, edit := [] }

/-- A character is typed: NUL and control-P count for nothing, control-U and backspace edit the line, and any other is
    dropped when the buffer is full. The line ends with a newline or control-D, or where the buffer is full. -/
def type (l : Line) (c : UInt8) : Line :=
  if c = 0 ∨ c = ctrl 'P' then l
  else if c = ctrl 'U' then { l with edit := [] }
  else if c = ctrl 'H' ∨ c = 0x7f then { l with edit := l.edit.dropLast }
  else if (l.unread ++ l.edit).length = INPUT_BUF then l
  else
    let c := if c = cr then nl else c
    let l := { l with edit := l.edit ++ [c] }
    if c = nl ∨ c = ctrl 'D' ∨ (l.unread ++ l.edit).length = INPUT_BUF then l.commit else l

end Line

/-! ### What reads return -/

/-- What a read of `n` bytes returns, and what it leaves, of the characters `xs`. -/
inductive Takes (n : Nat) : List UInt8 → List UInt8 → List UInt8 → Prop
  /-- A control-D is an end of file. -/
  | eof (xs : List UInt8) : Takes n [] (ctrl 'D' :: xs) xs
  | line (dst xs : List UInt8) (hlen : dst.length < n) (hplain : ∀ c ∈ dst, c ≠ nl ∧ c ≠ ctrl 'D') :
      Takes n (dst ++ [nl]) (dst ++ nl :: xs) xs
  | full (dst xs : List UInt8) (hlen : dst.length = n) (hplain : ∀ c ∈ dst, c ≠ nl ∧ c ≠ ctrl 'D') : Takes n dst (dst ++ xs) xs
  /-- The control-D is left to the next read. -/
  | short (dst xs : List UInt8) (hlen : dst.length < n) (hne : dst ≠ []) (hplain : ∀ c ∈ dst, c ≠ nl ∧ c ≠ ctrl 'D') :
      Takes n dst (dst ++ ctrl 'D' :: xs) (ctrl 'D' :: xs)

/-- The reads, one after the other, are served from `xs`, and leave `rest`. -/
inductive Served : List Read → List UInt8 → List UInt8 → Prop
  | nil (xs : List UInt8) : Served [] xs xs
  | snoc {reads : List Read} {n : Nat} {dst xs mid rest : List UInt8} (h : Served reads xs mid) (ht : Takes n dst mid rest) :
      Served (reads ++ [⟨n, some dst⟩]) xs rest

/-! ### The buffer -/

namespace Input
variable {i j : Input} {unread edit : List UInt8} {c : UInt8}

/-- `r <= w <= e <= r + INPUT_BUF` -/
def Ordered (i : Input) : Prop := (i.w - i.r).toNat ≤ (i.e - i.r).toNat ∧ (i.e - i.r).toNat ≤ INPUT_BUF

/-- The bytes from `r` to `e` are not overwritten. -/
def Keeps (i j : Input) : Prop := Ring.contents j.buf i.r i.e = Ring.contents i.buf i.r i.e

/-- The buffer holds the lines not yet read and the line that is edited. -/
structure Shows (i : Input) (unread edit : List UInt8) : Prop where
  contents : Ring.contents i.buf i.r i.e = unread ++ edit
  write : i.w = i.r + .ofNat unread.length
  room : (unread ++ edit).length ≤ INPUT_BUF

section
variable (h : i.Shows unread edit)
include h

theorem Shows.length : (i.e - i.r).toNat = unread.length + edit.length := by
  have hlen := congrArg List.length h.contents
  rwa [Ring.length_contents, List.length_append] at hlen

theorem Shows.edit_index : i.e = i.r + .ofNat (unread ++ edit).length := by
  rw [List.length_append]
  exact (Ring.toNat_sub_add _ h.length.symm).symm

theorem Shows.room_lt : (unread ++ edit).length < 2 ^ 32 := lt_of_le_of_lt h.room (by decide)

theorem Shows.unread_lt : unread.length < 2 ^ 32 := by
  have := h.room_lt
  rw [List.length_append] at this
  omega

theorem Shows.read_eq_write : i.r = i.w ↔ unread = [] := by
  have hz : i.r = i.r + .ofNat 0 := (UInt32.add_zero i.r).symm
  rw [h.write, ← List.length_eq_zero_iff]
  nth_rewrite 1 [hz]
  rw [Ring.add_ofNat_inj (by decide) h.unread_lt]
  exact eq_comm

theorem Shows.edit_eq_write : i.e = i.w ↔ edit = [] := by
  rw [h.edit_index, h.write, Ring.add_ofNat_inj h.room_lt h.unread_lt, List.length_append, ← List.length_eq_zero_iff]
  omega

theorem Shows.ordered : i.Ordered := by
  have hw : (i.w - i.r).toNat = unread.length := by
    rw [h.write, UInt32.add_comm, UInt32.add_sub_cancel, UInt32.toNat_ofNat_of_lt' h.unread_lt]
  have hroom := h.room
  rw [List.length_append] at hroom
  rw [Ordered, hw, h.length]
  exact ⟨Nat.le_add_right .., hroom⟩

theorem Shows.full_iff : i.e - i.r < .ofNat INPUT_BUF ↔ (unread ++ edit).length ≠ INPUT_BUF := by
  rw [UInt32.lt_iff_toNat_lt, h.length, ← List.length_append]
  exact ⟨Nat.ne_of_lt, lt_of_le_of_ne h.room⟩

theorem Shows.at_end : i.e = i.r + .ofNat INPUT_BUF ↔ (unread ++ edit).length = INPUT_BUF := by
  rw [h.edit_index]
  exact Ring.add_ofNat_inj h.room_lt (by decide)

end

theorem Shows.erase (h : i.Shows unread (edit ++ [c])) :
    i.buf (Ring.cell INPUT_BUF (i.e - 1)) = c ∧ Shows { i with e := i.e - 1 } unread edit := by
  have hne : i.r ≠ i.e := fun he => by
    have hlen := h.length
    rw [← he, UInt32.sub_self, List.length_append] at hlen
    exact absurd hlen (by simp)
  have hpop := h.contents
  rw [Ring.contents_pop_back hne, ← List.append_assoc] at hpop
  obtain ⟨hrest, hlast⟩ := List.append_inj' hpop rfl
  refine ⟨List.singleton_inj.mp hlast, hrest, h.write, ?_⟩
  have hroom := h.room
  rw [← List.append_assoc, List.length_append] at hroom
  exact Nat.le_of_succ_le hroom

theorem Shows.erase_all : ∀ (n : Nat) {i : Input} {edit : List UInt8}, i.Shows unread edit → nl ∉ edit → edit.length = n →
    (i.killLineFrom n).Shows unread [] ∧ (i.killLineFrom n).buf = i.buf
  | 0, i, edit, h, _, hn => by
    rw [List.length_eq_zero_iff] at hn
    subst hn
    exact ⟨h, rfl⟩
  | n + 1, i, edit, h, hplain, hn => by
    rcases List.eq_nil_or_concat' edit with rfl | ⟨edit, c, rfl⟩
    · cases hn
    · rw [List.length_append] at hn
      obtain ⟨hc, h'⟩ := h.erase
      have hne : i.e ≠ i.w := fun he => absurd (h.edit_eq_write.mp he) (by simp)
      have hc' : c ≠ nl := fun he => hplain (he ▸ List.mem_append_right _ (List.mem_singleton_self c))
      rw [killLineFrom, if_pos ⟨hne, hc ▸ hc'⟩]
      exact erase_all n h' (fun h => hplain (List.mem_append_left _ h)) (Nat.succ.inj hn)

theorem Shows.killLine (h : i.Shows unread edit) (hplain : nl ∉ edit) : i.killLine.Shows unread [] ∧ i.killLine.buf = i.buf := by
  refine erase_all _ h hplain ?_
  rw [h.edit_index, h.write, List.length_append, UInt32.ofNat_add, ← UInt32.add_assoc, UInt32.add_comm (_ + _), UInt32.add_sub_cancel,
    UInt32.toNat_ofNat_of_lt']
  have hlt := h.room_lt
  rw [List.length_append] at hlt
  exact lt_of_le_of_lt (Nat.le_add_left ..) hlt

theorem Shows.push (h : i.Shows unread edit) (hroom : (unread ++ edit).length ≠ INPUT_BUF) (c : UInt8) :
    Shows { i with buf := Function.update i.buf (Ring.cell INPUT_BUF i.e) c, e := i.e + 1 } unread (edit ++ [c]) := by
  have hlt := lt_of_le_of_ne h.room hroom
  have hlen : (i.e - i.r).toNat < INPUT_BUF := by
    rw [h.length, ← List.length_append]
    exact hlt
  refine ⟨?_, h.write, ?_⟩
  · rw [Ring.contents_push (by decide) (by decide) hlen, h.contents, List.append_assoc]
  · rw [← List.append_assoc, List.length_append]
    exact hlt

theorem Shows.commit (h : i.Shows unread edit) : Shows { i with w := i.e } (unread ++ edit) [] :=
  ⟨by rw [List.append_nil]; exact h.contents, h.edit_index, by rw [List.append_nil]; exact h.room⟩

theorem Shows.pop (h : i.Shows (c :: unread) edit) :
    i.buf (Ring.cell INPUT_BUF i.r) = c ∧ Shows { i with r := i.r + 1 } unread edit := by
  have hne : i.r ≠ i.e := fun he => by
    have hlen := h.length
    rw [← he, UInt32.sub_self, UInt32.toNat_zero, List.length_cons] at hlen
    omega
  have hpop := h.contents
  rw [Ring.contents_pop hne, List.cons_append] at hpop
  obtain ⟨hfirst, hrest⟩ := List.cons.inj hpop
  refine ⟨hfirst, hrest, ?_, Nat.le_of_succ_le h.room⟩
  show i.w = i.r + 1 + .ofNat unread.length
  rw [h.write, List.length_cons, UInt32.ofNat_add, UInt32.add_comm (.ofNat _), ← UInt32.add_assoc]
  rfl

/-! ### Typing -/

/-- The buffer is what the lines say. -/
structure Tracks (i : Input) (l : Line) : Prop where
  shows : i.Shows l.unread l.edit
  plain : nl ∉ l.edit
  taken : l.taken ≤ l.lines.length

theorem keeps_of_buf (h : j.buf = i.buf) : i.Keeps j := by
  rw [Keeps, h]

theorem Shows.push_keeps (h : i.Shows unread edit) (hroom : (unread ++ edit).length ≠ INPUT_BUF)
    (hj : j.buf = Function.update i.buf (Ring.cell INPUT_BUF i.e) c) : i.Keeps j := by
  rw [Keeps, hj]
  refine Ring.contents_update (by decide) ?_ c
  rw [h.length, ← List.length_append]
  exact lt_of_le_of_ne h.room hroom

variable {l : Line}

theorem Tracks.commit {edit : List UInt8} (h : i.Shows l.unread edit) (htaken : l.taken ≤ l.lines.length) :
    Tracks { i with w := i.e } { l with edit := edit }.commit := by
  have hunread : Line.unread (Line.commit { l with edit := edit }) = l.unread ++ edit := List.drop_append_of_le_length htaken
  refine ⟨hunread ▸ h.commit, List.not_mem_nil, htaken.trans ?_⟩
  show l.lines.length ≤ (l.lines ++ edit).length
  rw [List.length_append]
  exact Nat.le_add_right ..

theorem Tracks.type (h : i.Tracks l) (c : UInt8) :
    (i.type c).1.Tracks (l.type c) ∧ i.Keeps (i.type c).1 ∧ ((i.type c).2 = false → (l.type c).lines = l.lines) ∧
      (l.type c).taken = l.taken := by
  unfold Input.type Line.type
  by_cases hp : c = ctrl 'P'
  · rw [if_pos hp, if_pos (.inr hp)]
    exact ⟨h, keeps_of_buf rfl, fun _ => rfl, rfl⟩
  rw [if_neg hp]
  by_cases hu : c = ctrl 'U'
  · obtain ⟨hshows, hbuf⟩ := h.shows.killLine h.plain
    have h0 : ¬(c = 0 ∨ c = ctrl 'P') := by rw [hu]; decide
    rw [if_pos hu, if_neg h0, if_pos hu]
    exact ⟨⟨hshows, List.not_mem_nil, h.taken⟩, keeps_of_buf hbuf, fun _ => rfl, rfl⟩
  rw [if_neg hu]
  by_cases hh : c = ctrl 'H' ∨ c = 0x7f
  · have h0 : ¬(c = 0 ∨ c = ctrl 'P') := by rcases hh with hh | hh <;> rw [hh] <;> decide
    rw [if_pos hh, if_neg h0, if_neg hu, if_pos hh]
    rcases List.eq_nil_or_concat' l.edit with hnil | ⟨edit, d, hedit⟩
    · rw [if_neg (not_not.mpr (h.shows.edit_eq_write.mpr hnil))]
      refine ⟨⟨?_, ?_, h.taken⟩, keeps_of_buf rfl, fun _ => rfl, rfl⟩
      · show i.Shows l.unread l.edit.dropLast
        rw [hnil, List.dropLast_nil, ← hnil]
        exact h.shows
      · exact fun hn => h.plain (List.dropLast_subset _ hn)
    · have hne : i.e ≠ i.w := fun he => absurd (h.shows.edit_eq_write.mp he) (by simp [hedit])
      rw [if_pos hne]
      refine ⟨⟨?_, fun hn => h.plain (List.dropLast_subset _ hn), h.taken⟩, keeps_of_buf rfl, fun _ => rfl, rfl⟩
      have hshows := h.shows
      rw [hedit] at hshows
      show Shows _ l.unread l.edit.dropLast
      rw [hedit, List.dropLast_concat]
      exact hshows.erase.2
  rw [if_neg hh]
  by_cases h0 : c = 0
  · rw [if_neg (fun h => h.1 h0), if_pos (.inl h0)]
    exact ⟨h, keeps_of_buf rfl, fun _ => rfl, rfl⟩
  rw [if_neg (not_or.mpr ⟨h0, hp⟩), if_neg hu, if_neg hh]
  by_cases hfull : (l.unread ++ l.edit).length = INPUT_BUF
  · rw [if_neg (fun hlt => h.shows.full_iff.mp hlt.2 hfull), if_pos hfull]
    exact ⟨h, keeps_of_buf rfl, fun _ => rfl, rfl⟩
  rw [if_pos ⟨h0, h.shows.full_iff.mpr hfull⟩, if_neg hfull]
  dsimp only
  generalize (if c = cr then nl else c) = d
  have hpush := h.shows.push hfull d
  have hend := hpush.at_end
  dsimp only at hend
  by_cases hcommit : d = nl ∨ d = ctrl 'D' ∨ i.e + 1 = i.r + .ofNat INPUT_BUF
  · rw [if_pos hcommit, if_pos (by rw [hend] at hcommit; exact hcommit)]
    exact ⟨.commit hpush h.taken, h.shows.push_keeps hfull rfl, (fun hw => nomatch hw), rfl⟩
  · rw [if_neg hcommit, if_neg (by rw [hend] at hcommit; exact hcommit)]
    refine ⟨⟨hpush, ?_, h.taken⟩, h.shows.push_keeps hfull rfl, fun _ => rfl, rfl⟩
    intro hn
    rcases List.mem_append.mp hn with hn | hn
    · exact h.plain hn
    · exact hcommit (.inl (List.mem_singleton.mp hn).symm)

theorem Tracks.consoleintr (cs : List UInt8) : ∀ {i : Input} {l : Line}, i.Tracks l →
    (i.consoleintr cs).1.Tracks (cs.foldl Line.type l) ∧
      ((i.consoleintr cs).2 = false → (cs.foldl Line.type l).lines = l.lines) ∧ (cs.foldl Line.type l).taken = l.taken := by
  induction cs with
  | nil =>
    intro i l h
    exact ⟨h, fun _ => rfl, rfl⟩
  | cons c cs ih =>
    intro i l h
    obtain ⟨htype, -, hlines, htaken⟩ := h.type c
    obtain ⟨htracks, hlines', htaken'⟩ := ih htype
    refine ⟨htracks, fun hw => ?_, htaken'.trans htaken⟩
    obtain ⟨hw, hw'⟩ := Bool.or_eq_false_iff.mp hw
    exact (hlines' hw').trans (hlines hw)

/-! ### Reading -/

/-- What `consoleread` does when `xs` is there for it, with what it has read before. -/
inductive Reads (target : Nat) (xs edit : List UInt8) : Exit × Input → Prop
  /-- It has taken all there is. -/
  | sleep {n : Nat} {i : Input} (hlen : xs.length + n = target) (hpos : 0 < n) (hplain : ∀ c ∈ xs, c ≠ nl ∧ c ≠ ctrl 'D')
      (h : i.Shows [] edit) : Reads target xs edit (.sleep n xs, i)
  | done {got rest : List UInt8} {i : Input} (ht : Takes target got xs rest) (h : i.Shows rest edit) :
      Reads target xs edit (.done got, i)

theorem reads_consoleread {target : Nat} (n : Nat) : ∀ {dst unread : List UInt8} {i : Input}, i.Shows unread edit →
    dst.length + n = target → 0 < target → (∀ c ∈ dst, c ≠ nl ∧ c ≠ ctrl 'D') →
    Reads target (dst ++ unread) edit (i.consoleread false target n dst) := by
  induction n with
  | zero =>
    intro dst unread i h hlen _ hplain
    exact .done (.full dst unread hlen hplain) h
  | succ n ih =>
    intro dst unread i h hlen hpos hplain
    rw [consoleread]
    cases unread with
    | nil =>
      rw [if_pos (h.read_eq_write.mpr rfl)]
      rw [List.append_nil]
      exact .sleep hlen (Nat.succ_pos n) hplain h
    | cons c unread =>
      obtain ⟨hc, hpop⟩ := h.pop
      rw [if_neg (fun he => nomatch h.read_eq_write.mp he), hc]
      dsimp only
      by_cases hd : c = ctrl 'D'
      · subst hd
        rw [if_pos rfl]
        split
        · rename_i hlt
          have hne : dst ≠ [] := fun hnil => by
            rw [hnil, List.length_nil] at hlen
            omega
          refine .done (.short dst unread (by omega) hne hplain) ?_
          rw [UInt32.add_sub_cancel]
          exact h
        · rename_i hlt
          have hnil : dst = [] := List.length_eq_zero_iff.mp (by omega)
          subst hnil
          exact .done (.eof unread) hpop
      rw [if_neg hd]
      by_cases hn : c = nl
      · subst hn
        rw [if_pos rfl]
        exact .done (.line dst unread (by omega) hplain) hpop
      · rw [if_neg hn]
        have hplain' : ∀ d ∈ dst ++ [c], d ≠ nl ∧ d ≠ ctrl 'D' := by
          intro d hmem
          rcases List.mem_append.mp hmem with hmem | hmem
          · exact hplain d hmem
          · rw [List.mem_singleton.mp hmem]
            exact ⟨hn, hd⟩
        have hlen' : (dst ++ [c]).length + n = target := by
          rw [List.length_append, List.length_singleton]
          omega
        have hnext := ih hpop hlen' hpos hplain'
        rwa [List.append_assoc, List.singleton_append] at hnext

end Input

/-! ### Runs -/

theorem Takes.append {n : Nat} {dst xs rest : List UInt8} (h : Takes n dst xs rest) (ys : List UInt8) :
    Takes n dst (xs ++ ys) (rest ++ ys) := by
  cases h with
  | eof xs => exact .eof (rest ++ ys)
  | line dst xs hlen hplain =>
    rw [List.append_assoc]
    exact .line dst (rest ++ ys) hlen hplain
  | full dst xs hlen hplain =>
    rw [List.append_assoc]
    exact .full dst (rest ++ ys) hlen hplain
  | short dst xs hlen hne hplain =>
    rw [List.append_assoc]
    exact .short dst (xs ++ ys) hlen hne hplain

theorem Served.append {reads : List Read} {xs rest : List UInt8} (h : Served reads xs rest) (ys : List UInt8) :
    Served reads (xs ++ ys) (rest ++ ys) := by
  induction h with
  | nil xs => exact .nil (xs ++ ys)
  | snoc h ht ih => exact .snoc ih (ht.append ys)

/-- How many characters a read takes: a result of 0 bytes stands for a control-D. -/
def Read.size (x : Read) : Nat :=
  match x.got with
  | none => 0
  | some [] => 1
  | some dst => dst.length

theorem Takes.split {n : Nat} {dst xs rest : List UInt8} (hn : 0 < n) (h : Takes n dst xs rest) :
    ∃ front, xs = front ++ rest ∧ front.length = Read.size ⟨n, some dst⟩ := by
  have hsize : dst ≠ [] → dst.length = Read.size ⟨n, some dst⟩ := by
    intro hne
    cases dst with
    | nil => exact absurd rfl hne
    | cons c dst => rfl
  cases h with
  | eof xs => exact ⟨[ctrl 'D'], rfl, rfl⟩
  | line dst xs hlen hplain => exact ⟨dst ++ [nl], List.append_cons dst nl rest, hsize (by simp)⟩
  | full dst xs hlen hplain => exact ⟨dst, rfl, hsize (List.ne_nil_of_length_pos (hlen ▸ hn))⟩
  | short dst xs hlen hne hplain => exact ⟨dst, rfl, hsize hne⟩

/-- The bytes that an unfinished read has. -/
def begun (s : Console) : List UInt8 :=
  match s.reader with
  | none => []
  | some p => p.dst

def taken (s : Console) : Nat := (s.reads.map Read.size).sum + s.begun.length

structure Watched where
  console : Console
  line : Line := {}

def Line.hear (l : Line) : Act → Line
  | .intr cs => cs.foldl Line.type l
  | _ => l

def Watched.step (s : Watched) (a : Act) : Outcome Watched := do
  let console ← s.console.step a
  .ok ⟨console, { s.line.hear a with taken := console.taken }⟩

def Watched.Booted (s : Watched) : Prop := ∃ buf, s = { console := { input := { buf := buf } } }

/-- Reads are of positive length, and readers are not killed. -/
def Plain (_ : Watched) : Act → Prop
  | .intr _ => True
  | .read n => 0 < n
  | .run killed => killed = false

instance (s : Watched) : DecidablePred (Plain s)
  | .intr _ => inferInstanceAs (Decidable True)
  | .read n => inferInstanceAs (Decidable (0 < n))
  | .run killed => inferInstanceAs (Decidable (killed = false))

structure Reader.Ok (p : Reader) (unread : List UInt8) : Prop where
  target : p.dst.length + p.n = p.target
  pos : 0 < p.n
  plain : ∀ c ∈ p.dst, c ≠ nl ∧ c ≠ ctrl 'D'
  asleep : p.asleep = true → unread = []

structure Watched.Inv (s : Watched) : Prop where
  tracks : s.console.input.Tracks s.line
  taken : s.line.taken = s.console.taken
  served : Served s.console.reads s.line.lines (s.console.begun ++ s.line.unread)
  front : ∃ front, s.line.lines = front ++ (s.console.begun ++ s.line.unread) ∧ front.length = (s.console.reads.map Read.size).sum
  reader : ∀ p, s.console.reader = some p → p.Ok s.line.unread

theorem Line.foldl_type_lines (cs : List UInt8) : ∀ l : Line, ∃ ys, (cs.foldl Line.type l).lines = l.lines ++ ys := by
  induction cs with
  | nil => exact fun l => ⟨[], (List.append_nil _).symm⟩
  | cons c cs ih =>
    intro l
    obtain ⟨ys, hys⟩ := ih (l.type c)
    have htype : ∃ zs, (l.type c).lines = l.lines ++ zs := by
      unfold Line.type
      dsimp only
      split_ifs
      all_goals first | exact ⟨[], (List.append_nil _).symm⟩ | exact ⟨_, rfl⟩
    obtain ⟨zs, hzs⟩ := htype
    exact ⟨zs ++ ys, by rw [List.foldl_cons, hys, hzs, List.append_assoc]⟩

variable {s s' : Watched} {a : Act}

theorem Watched.inv_of_rest {c : Console} {l : Line} {xs front : List UInt8} (hshows : c.input.Shows xs l.edit) (hplain : nl ∉ l.edit)
    (hserved : Served c.reads l.lines (c.begun ++ xs)) (hlines : l.lines = front ++ (c.begun ++ xs))
    (hfront : front.length = (c.reads.map Read.size).sum) (hreader : ∀ p, c.reader = some p → p.Ok xs) :
    Inv ⟨c, { l with taken := c.taken }⟩ ∧ Line.unread { l with taken := c.taken } = xs := by
  have htaken : c.taken = (front ++ c.begun).length := by rw [Console.taken, ← hfront, List.length_append]
  rw [← List.append_assoc] at hlines
  have hunread : Line.unread { l with taken := c.taken } = xs := by
    rw [Line.unread, htaken, hlines, List.drop_left]
  refine ⟨⟨⟨hunread.symm ▸ hshows, hplain, ?_⟩, rfl, ?_, ⟨front, ?_, hfront⟩, ?_⟩, hunread⟩
  · show c.taken ≤ l.lines.length
    rw [htaken, hlines]
    exact (List.prefix_append (front ++ c.begun) xs).length_le
  · rw [hunread]
    exact hserved
  · rw [hunread, ← List.append_assoc]
    exact hlines
  · rw [hunread]
    exact hreader

theorem begun_wake (input : Input) (woken : Bool) (c : Console) :
    begun { c with input := input, reader := c.reader.map (·.wake woken) } = c.begun := by
  unfold begun
  cases c.reader with
  | none => rfl
  | some p => cases woken <;> rfl

theorem Watched.Inv.intr (h : s.Inv) (cs : List UInt8) (hs : s.step (.intr cs) = .ok s') : s'.Inv := by
  cases hs
  obtain ⟨htracks, hlines, htaken⟩ := h.tracks.consoleintr cs
  obtain ⟨ys, hys⟩ := Line.foldl_type_lines cs s.line
  have hunread : (cs.foldl Line.type s.line).unread = s.line.unread ++ ys := by
    rw [Line.unread, htaken, hys]
    exact List.drop_append_of_le_length h.tracks.taken
  have hbegun := begun_wake (s.console.input.consoleintr cs).1 (s.console.input.consoleintr cs).2 s.console
  obtain ⟨front, hfront, hlen⟩ := h.front
  refine (Watched.inv_of_rest (c := { s.console with input := (s.console.input.consoleintr cs).1, reader := _ })
    htracks.shows htracks.plain ?_ ?_ hlen fun p hp => ?_).1
  · rw [hbegun, hys, hunread, ← List.append_assoc]
    exact h.served.append ys
  · rw [hbegun, hys, hunread, hfront, List.append_assoc, List.append_assoc]
  · obtain ⟨q, hq, rfl⟩ := Option.map_eq_some_iff.mp hp
    have hok := h.reader q hq
    unfold Reader.wake
    split
    · exact ⟨hok.target, hok.pos, hok.plain, fun h => nomatch h⟩
    · rename_i hwoken
      refine ⟨hok.target, hok.pos, hok.plain, fun hasleep => ?_⟩
      rw [Line.unread, hlines (Bool.eq_false_iff.mpr hwoken), htaken]
      exact hok.asleep hasleep

theorem Watched.Inv.read {n : Int} (h : s.Inv) (hn : 0 < n) (hs : s.step (.read n) = .ok s') : s'.Inv := by
  obtain ⟨console, hc, hs⟩ := Outcome.bind_eq_ok.mp hs
  cases hs
  unfold Console.step at hc
  dsimp only at hc
  split at hc <;> cases hc
  rename_i hnone
  have hbegun : s.console.begun = [] := by rw [begun, Option.isNone_iff_eq_none.mp hnone]
  have hserved := h.served
  obtain ⟨front, hfront, hlen⟩ := h.front
  rw [hbegun] at hserved hfront
  have hreader : ∀ p : Reader, some { target := n.toNat, n := n.toNat } = some p → p.Ok s.line.unread := by
    intro p hp
    cases hp
    exact ⟨Nat.zero_add _, Int.lt_toNat.mpr hn, fun c hc => absurd hc List.not_mem_nil, fun h => nomatch h⟩
  exact (Watched.inv_of_rest (c := { s.console with reader := some { target := n.toNat, n := n.toNat } })
    h.tracks.shows h.tracks.plain hserved hfront hlen hreader).1

theorem Watched.Inv.run (h : s.Inv) (hs : s.step (.run false) = .ok s') :
    s'.Inv ∧ (s'.console.reader = none ∨ s'.line.unread = []) := by
  obtain ⟨console, hc, hs⟩ := Outcome.bind_eq_ok.mp hs
  cases hs
  unfold Console.step at hc
  dsimp only at hc
  split at hc
  · cases hc
  · rename_i p hp
    have hok := h.reader p hp
    have hbegun : s.console.begun = p.dst := by rw [begun, hp]
    have hserved := h.served
    obtain ⟨front, hfront, hlen⟩ := h.front
    rw [hbegun] at hserved hfront
    split at hc
    · cases hc
    · have hpos : 0 < p.target := by
        have := hok.pos
        have := hok.target
        omega
      have hreads := Input.reads_consoleread p.n h.tracks.shows hok.target hpos hok.plain
      generalize s.console.input.consoleread false p.target p.n p.dst = x at hc hreads
      cases hreads with
      | @sleep n input htarget hleft hplain hshows =>
        cases hc
        rw [← List.append_nil (p.dst ++ s.line.unread)] at hserved hfront
        obtain ⟨hinv, hunread⟩ := Watched.inv_of_rest
          (c := { s.console with input := input, reader := some { p with n := n, dst := p.dst ++ s.line.unread, asleep := true } })
          hshows h.tracks.plain hserved hfront hlen fun q hq => by
            cases hq
            exact ⟨htarget, hleft, hplain, fun _ => rfl⟩
        exact ⟨hinv, .inr hunread⟩
      | @done got rest input ht hshows =>
        cases hc
        obtain ⟨more, hmore, hsize⟩ := ht.split hpos
        have hlen' : (front ++ more).length = ((s.console.reads ++ [Read.mk p.target (some got)]).map Read.size).sum := by
          rw [List.map_append, List.sum_append, List.map_singleton, List.sum_singleton, List.length_append, hlen, hsize]
        rw [hmore, ← List.append_assoc] at hfront
        exact ⟨(Watched.inv_of_rest
          (c := { input := input, reader := none, reads := s.console.reads ++ [⟨p.target, some got⟩] })
          hshows h.tracks.plain (.snoc hserved ht) hfront hlen' fun q hq => nomatch hq).1, .inl rfl⟩

theorem Watched.Inv.step (h : s.Inv) (hg : Plain s a) (hs : s.step a = .ok s') : s'.Inv := by
  cases a with
  | intr cs => exact h.intr cs hs
  | read n => exact h.read hg hs
  | run killed =>
    obtain rfl : killed = false := hg
    exact (h.run hs).1

theorem Watched.Inv.boot (h : s.Booted) : s.Inv := by
  obtain ⟨buf, rfl⟩ := h
  have hshows : Input.Shows { buf := buf } [] [] := ⟨Ring.contents_self, rfl, Nat.zero_le _⟩
  exact (Watched.inv_of_rest (c := { input := { buf := buf } }) (l := {}) hshows List.not_mem_nil (.nil [])
    (show [] = [] ++ ([] ++ []) from rfl) rfl fun p hp => nomatch hp).1

/-- In every run the indices are in order, a character never overwrites one that is still in the buffer, and the reads are
    served, one after the other, from the lines that were typed. A reader sleeps only when it has taken all of them, and one
    that does not returns or takes all of them. -/
theorem console_discipline (h : Reachable Watched.step Plain Watched.Booted s) :
    s.console.input.Ordered ∧
    (∀ c, s.console.input.Keeps (s.console.input.type c).1) ∧
    Served s.console.reads s.line.lines (s.console.begun ++ s.line.unread) ∧
    (∀ c ∈ s.console.begun, c ≠ nl ∧ c ≠ ctrl 'D') ∧
    (∀ p, s.console.reader = some p → p.asleep = true → s.line.unread = []) ∧
    ∀ p, s.console.reader = some p → p.asleep = false →
      ∃ s', s.step (.run false) = .ok s' ∧ (s'.console.reader = none ∨ s'.line.unread = []) := by
  have hinv : s.Inv := h.invariant (fun _ => .boot) fun _ _ _ h hg hs => h.step hg hs
  refine ⟨hinv.tracks.shows.ordered, fun c => (hinv.tracks.type c).2.1, hinv.served, ?_, fun p hp => (hinv.reader p hp).asleep, ?_⟩
  · intro c hc
    unfold begun at hc
    split at hc
    · cases hc
    · rename_i p hp
      exact (hinv.reader p hp).plain c hc
  · intro p hp hawake
    have hstep : ∃ s', s.step (.run false) = .ok s' := by
      unfold Watched.step Console.step
      dsimp only
      rw [hp]
      dsimp only
      rw [if_neg (by rw [hawake]; decide)]
      split <;> exact ⟨_, rfl⟩
    obtain ⟨s', hs⟩ := hstep
    exact ⟨s', hs, (hinv.run hs).2⟩

/-- `ab`, backspace, `c`, control-D: a read of 5 bytes gets `ac`, and the next one nothing. -/
theorem console_eof : ∃ s : Watched, s.line.lines = [97, 99, 4] ∧ s.console.reads.map Read.got = [some [97, 99], some []] ∧
    Served s.console.reads s.line.lines [] := by
  obtain ⟨s, hs, hlines, hreads, hrest⟩ : ∃ s, runList (fun s a => if decide (Plain s a) then Watched.step s a else .sleep)
      { console := { input := { buf := fun _ => 0 } } }
      [.read 5, .run false, .intr [97, 98], .intr [8, 99, 4], .run false, .read 5, .run false] = .ok s ∧ s.line.lines = [97, 99, 4] ∧
      s.console.reads.map Read.got = [some [97, 99], some []] ∧ s.console.begun ++ s.line.unread = [] := by
    decide +kernel
  have hreach : Reachable Watched.step Plain Watched.Booted s :=
    .runGuarded (fun _ _ ha => of_decide_eq_true ha) (.init ⟨_, rfl⟩) hs
  exact ⟨s, hlines, hreads, hrest ▸ (console_discipline hreach).2.2.1⟩

end Console
end Xv6
