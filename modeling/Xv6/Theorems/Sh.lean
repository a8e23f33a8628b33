import Mathlib.Data.List.DropRight
import Mathlib.Data.List.Forall2
import Xv6.Theorems.ShGrammar

/-! `parsecmd` and the grammar: the functions of `sh.c` follow the ones on tokens, and the words in memory are the words of the tree once
    `nulterminate` has ended them. -/

namespace Xv6
namespace Sh
set_option maxRecDepth 4000

/-! ### The tokens of a line -/

/-- A character of a word. -/
def plain (c : UInt8) : Bool := !strchr whitespace c && !strchr symbols c

def operator (c : UInt8) : Token :=
  if c = '<'.toUInt8 then .lt
  else if c = '>'.toUInt8 then .gt
  else if c = '|'.toUInt8 then .bar
  else if c = '&'.toUInt8 then .amp
  else if c = ';'.toUInt8 then .semi
  else if c = '('.toUInt8 then .lparen
  else .rparen

/-- The tokens of a line: a word is as long as it can be, and `>>` is one token. -/
def tokens : List UInt8 → List Token
  | [] => []
  | c :: s =>
    if strchr whitespace c then tokens s
    else if plain c then .word (c :: s.takeWhile plain) :: tokens (s.dropWhile plain)
    else if c = '>'.toUInt8 ∧ deref s = '>'.toUInt8 then .gtgt :: tokens s.tail
    else operator c :: tokens s
termination_by s => s.length
decreasing_by
  all_goals simp only [List.length_cons, List.length_tail]
  · exact Nat.lt_succ_self _
  · exact Nat.lt_succ_of_le (List.dropWhile_suffix plain).length_le
  · omega
  · exact Nat.lt_succ_self _

@[simp] theorem tokens_nil : tokens [] = [] := by rw [tokens]

variable {line s : Ptr} {c : UInt8} {k : Nat}

theorem tokens_white (h : strchr whitespace c = true) : tokens (c :: s) = tokens s := by rw [tokens, if_pos h]

theorem not_white_of_plain (h : plain c = true) : strchr whitespace c = false := by
  rw [plain, Bool.and_eq_true, Bool.not_eq_true'] at h
  exact h.1

theorem tokens_word (h : plain c = true) : tokens (c :: s) = .word (c :: s.takeWhile plain) :: tokens (s.dropWhile plain) := by
  rw [tokens, if_neg (Bool.not_eq_true _ ▸ not_white_of_plain h), if_pos h]

theorem tokens_skip (s : Ptr) : tokens (skip s) = tokens s := by
  induction s with
  | nil => rfl
  | cons c s ih =>
    rw [skip, List.dropWhile_cons]
    split
    · rename_i h
      rw [tokens_white h]
      exact ih
    · rfl

theorem length_tokens_le (s : Ptr) : (tokens s).length ≤ s.length := by
  fun_induction tokens s with
  | case1 => exact Nat.le_refl _
  | case2 c s h ih => exact Nat.le_succ_of_le ih
  | case3 c s h h' ih => exact Nat.succ_le_succ (Nat.le_trans ih (List.dropWhile_suffix plain).length_le)
  | case4 c s h h' h'' ih => exact Nat.succ_le_succ (Nat.le_trans ih (by rw [List.length_tail]; omega))
  | case5 c s h h' h'' ih => exact Nat.succ_le_succ ih

theorem takeWhile_append_stop {α : Type} {p : α → Bool} {c : α} (a b : List α) (h : p c = false) :
    (a ++ c :: b).takeWhile p = a.takeWhile p ∧ (a ++ c :: b).dropWhile p = a.dropWhile p ++ c :: b := by
  induction a with
  | nil => simp [h]
  | cons x a ih =>
    simp only [List.cons_append, List.takeWhile_cons, List.dropWhile_cons]
    split
    · exact ⟨congrArg _ ih.1, ih.2⟩
    · exact ⟨rfl, rfl⟩

theorem not_plain_of_white (h : strchr whitespace c = true) : plain c = false := by
  rw [plain, h]
  rfl

theorem white_ne_gt (h : strchr whitespace c = true) : c ≠ '>'.toUInt8 := by
  rintro rfl
  revert h
  decide

theorem tokens_append_cons (a b : Ptr) (hc : strchr whitespace c = true) : tokens (a ++ c :: b) = tokens a ++ tokens b := by
  fun_induction tokens a with
  | case1 => exact tokens_white hc
  | case2 d s h ih =>
    rw [List.cons_append, tokens_white h]
    exact ih
  | case3 d s h h' ih =>
    obtain ⟨htake, hdrop⟩ := takeWhile_append_stop s b (not_plain_of_white hc)
    rw [List.cons_append, tokens_word h', htake, hdrop, ih]
    rfl
  | case4 d s h h' h'' ih =>
    cases s with
    | nil => exact absurd h''.2 (by decide)
    | cons e s =>
      have hgt : d = '>'.toUInt8 ∧ deref (e :: s ++ c :: b) = '>'.toUInt8 := h''
      rw [List.cons_append, tokens, if_neg h, if_neg h', if_pos hgt]
      exact congrArg _ ih
  | case5 d s h h' h'' ih =>
    have hnot : ¬(d = '>'.toUInt8 ∧ deref (s ++ c :: b) = '>'.toUInt8) := by
      cases s with
      | nil => exact fun hd => white_ne_gt hc hd.2
      | cons e s => exact h''
    rw [List.cons_append, tokens, if_neg h, if_neg h', if_neg hnot]
    exact congrArg _ ih

theorem tokens_blank {ws : Ptr} (b : Ptr) (hws : ∀ c ∈ ws, strchr whitespace c = true) : tokens (ws ++ b) = tokens b := by
  induction ws with
  | nil => rfl
  | cons c ws ih =>
    rw [List.cons_append, tokens_white (hws c List.mem_cons_self)]
    exact ih fun d hd => hws d (List.mem_cons_of_mem c hd)

theorem tokens_append_white {ws : Ptr} (a b : Ptr) (hws : ∀ c ∈ ws, strchr whitespace c = true) (hne : ws ≠ []) :
    tokens (a ++ ws ++ b) = tokens a ++ tokens b := by
  cases ws with
  | nil => exact absurd rfl hne
  | cons c ws =>
    rw [List.append_assoc, List.cons_append, tokens_append_cons a (ws ++ b) (hws c List.mem_cons_self),
      tokens_blank b fun d hd => hws d (List.mem_cons_of_mem c hd)]

/-! ### `peek` and `gettoken` -/

def Token.code : Token → UInt8
  | .word _ => 'a'.toUInt8
  | .lt => '<'.toUInt8
  | .gt => '>'.toUInt8
  | .gtgt => '+'.toUInt8
  | .bar => '|'.toUInt8
  | .amp => '&'.toUInt8
  | .semi => ';'.toUInt8
  | .lparen => '('.toUInt8
  | .rparen => ')'.toUInt8

def Token.first : Token → Option UInt8
  | .word _ => none
  | .gtgt => some '>'.toUInt8
  | tok => some tok.code

/-- The word between the pointers, in the line: it ends where no character of a word is. -/
structure Word (line : List UInt8) (q eq : Ptr) (w : List UInt8) : Prop where
  suffix : q <:+ line
  split : q = w ++ eq
  plain : ∀ c ∈ w, plain c = true
  ends : ∀ c ∈ eq.head?, Sh.plain c = false
  token : tokens q = .word w :: tokens eq

theorem skip_suffix (s : Ptr) : skip s <:+ s := List.dropWhile_suffix _

/-- At `s` is no token, or one that `gettoken` reads. -/
inductive Scan (s : Ptr) : Prop
  | none (htokens : tokens s = []) (hskip : skip s = []) (hgot : gettoken s = ⟨0, [], [], []⟩)
  | word (w : List UInt8) (hret : (gettoken s).ret = 'a'.toUInt8) (hword : Word s (gettoken s).q (gettoken s).eq w)
      (hs : (gettoken s).s <:+ s) (htokens : tokens s = .word w :: tokens (gettoken s).s)
      (hfirst : ∃ c, deref (skip s) = c ∧ Sh.plain c = true)
  | operator (tok : Token) (c : UInt8) (hc : tok.first = some c) (hfirst : deref (skip s) = c) (hret : (gettoken s).ret = tok.code)
      (hs : (gettoken s).s <:+ s) (htokens : tokens s = tok :: tokens (gettoken s).s)

variable {r : Ptr}

theorem white_of_skip (h : skip s = c :: r) : strchr whitespace c = false := by
  have := List.head?_dropWhile_not (strchr whitespace) s
  rw [skip] at h
  rw [h] at this
  exact this

theorem tokens_of_skip (h : skip s = c :: r) : tokens s = tokens (c :: r) := by rw [← h, tokens_skip]

theorem plain_ne {d : UInt8} (hplain : plain c = true) (hd : plain d = false) : c ≠ d := by
  rintro rfl
  rw [hplain] at hd
  cases hd

theorem gettoken_word (h : skip s = c :: r) (hc : c ≠ 0) (hplain : plain c = true) :
    gettoken s = ⟨'a'.toUInt8, c :: r, r.dropWhile plain, skip (r.dropWhile plain)⟩ := by
  have hop : ¬strchr (chars "|();&<") c = true := by
    intro hop
    have hmem : ∀ d ∈ chars "|();&<", plain d = false := by decide
    exact plain_ne hplain (hmem c (List.contains_iff_mem.mp hop)) rfl
  have hgt : c ≠ '>'.toUInt8 := plain_ne hplain (by decide)
  have hdrop : (c :: r).dropWhile plain = r.dropWhile plain := List.dropWhile_cons_of_pos hplain
  rw [gettoken, h]
  simp only [if_neg hc, if_neg hop, if_neg hgt]
  rw [← hdrop]
  rfl

theorem gettoken_operator (h : skip s = c :: r) (hop : strchr (chars "|();&<") c = true) : gettoken s = ⟨c, c :: r, r, skip r⟩ := by
  have hc : c ≠ 0 := by
    rintro rfl
    revert hop
    decide
  rw [gettoken, h]
  simp only [if_neg hc, if_pos hop]

theorem gettoken_gt (h : skip s = '>'.toUInt8 :: r) (hr : deref r ≠ '>'.toUInt8) :
    gettoken s = ⟨'>'.toUInt8, '>'.toUInt8 :: r, r, skip r⟩ := by
  rw [gettoken, h]
  simp only [if_neg hr]
  rfl

theorem gettoken_gtgt (h : skip s = '>'.toUInt8 :: r) (hr : deref r = '>'.toUInt8) :
    gettoken s = ⟨'+'.toUInt8, '>'.toUInt8 :: r, r.tail, skip r.tail⟩ := by
  rw [gettoken, h]
  simp only [if_pos hr]
  rfl

theorem tokens_operator (hop : strchr (chars "|();&<") c = true) : tokens (c :: r) = operator c :: tokens r := by
  have hmem := List.contains_iff_mem.mp hop
  have hnot : ∀ d ∈ chars "|();&<", strchr whitespace d = false ∧ plain d = false ∧ d ≠ '>'.toUInt8 := by decide
  obtain ⟨hwhite, hplain, hgt⟩ := hnot c hmem
  have hgt' : ¬(c = '>'.toUInt8 ∧ deref r = '>'.toUInt8) := fun h => hgt h.1
  rw [tokens, if_neg (Bool.eq_false_iff.mp hwhite), if_neg (Bool.eq_false_iff.mp hplain), if_neg hgt']

theorem tokens_gt : tokens ('>'.toUInt8 :: r) = if deref r = '>'.toUInt8 then .gtgt :: tokens r.tail else .gt :: tokens r := by
  have hwhite : ¬strchr whitespace '>'.toUInt8 = true := by decide
  have hplain : ¬plain '>'.toUInt8 = true := by decide
  rw [tokens, if_neg hwhite, if_neg hplain]
  simp only [true_and]
  rfl

theorem scan (h0 : 0 ∉ s) : Scan s := by
  have hsuffix := skip_suffix s
  cases hskip : skip s with
  | nil =>
    refine .none ?_ hskip ?_
    · rw [← tokens_skip, hskip, tokens_nil]
    · rw [gettoken, hskip]
      rfl
  | cons c r =>
    rw [hskip] at hsuffix
    have hr : r <:+ s := (List.suffix_cons c r).trans hsuffix
    have hc0 : c ≠ 0 := by
      rintro rfl
      exact h0 (hsuffix.subset List.mem_cons_self)
    have hderef : deref (skip s) = c := by
      rw [hskip]
      rfl
    have htokens := tokens_of_skip hskip
    by_cases hplain : plain c = true
    · have hgot := gettoken_word hskip hc0 hplain
      have hdrop : r.dropWhile plain <:+ s := (List.dropWhile_suffix plain).trans hr
      refine .word (c :: r.takeWhile plain) ?_ ?_ ?_ ?_ ⟨c, hderef, hplain⟩
      · rw [hgot]
      · rw [hgot]
        refine ⟨hsuffix, ?_, ?_, ?_, tokens_word hplain⟩
        · rw [List.cons_append, List.takeWhile_append_dropWhile]
        · intro d hd
          rcases List.mem_cons.mp hd with rfl | hd
          · exact hplain
          · exact List.all_eq_true.mp List.all_takeWhile d hd
        · intro d hd
          have := List.head?_dropWhile_not plain r
          rw [hd] at this
          exact this
      · rw [hgot]
        exact (skip_suffix _).trans hdrop
      · rw [htokens, tokens_word hplain, hgot, tokens_skip]
    · by_cases hop : strchr (chars "|();&<") c = true
      · have hgot := gettoken_operator hskip hop
        have hmem : ∀ d ∈ chars "|();&<", (operator d).first = some d ∧ (operator d).code = d := by decide
        obtain ⟨hfirst, hcode⟩ := hmem c (List.contains_iff_mem.mp hop)
        refine .operator (operator c) c hfirst hderef ?_ ?_ ?_
        · rw [hgot, hcode]
        · rw [hgot]
          exact (skip_suffix _).trans hr
        · rw [htokens, tokens_operator hop, hgot, tokens_skip]
      · obtain rfl : c = '>'.toUInt8 := by
          have hwhite := white_of_skip hskip
          have hsym : c ∈ symbols := by
            rw [plain, hwhite, Bool.not_false, Bool.true_and, Bool.not_eq_true, Bool.not_eq_false'] at hplain
            exact List.contains_iff_mem.mp hplain
          have hmem : ∀ d ∈ symbols, strchr (chars "|();&<") d = false → d = '>'.toUInt8 := by decide
          exact hmem c hsym (Bool.not_eq_true _ ▸ hop)
        by_cases hr' : deref r = '>'.toUInt8
        · have hgot := gettoken_gtgt hskip hr'
          refine .operator .gtgt _ rfl hderef ?_ ?_ ?_
          · rw [hgot]
            rfl
          · rw [hgot]
            exact (skip_suffix _).trans ((List.tail_suffix r).trans hr)
          · rw [htokens, tokens_gt, if_pos hr', hgot, tokens_skip]
        · have hgot := gettoken_gt hskip hr'
          refine .operator .gt _ rfl hderef ?_ ?_ ?_
          · rw [hgot]
            rfl
          · rw [hgot]
            exact (skip_suffix _).trans hr
          · rw [htokens, tokens_gt, if_neg hr', hgot, tokens_skip]

theorem peek_eq (h0 : 0 ∉ s) {toks : String} (htoks : ∀ c ∈ chars toks, plain c = false) :
    peek s toks = ((tokens s).head?.any fun tok => tok.first.any (strchr (chars toks)), skip s) := by
  rw [peek]
  refine Prod.ext ?_ rfl
  cases scan h0 with
  | none htokens hskip hgot =>
    rw [htokens]
    dsimp only
    rw [hskip]
    rfl
  | word w hret hword hs htokens hfirst =>
    obtain ⟨c, hc, hplain⟩ := hfirst
    dsimp only
    rw [htokens, hc]
    have hnot : strchr (chars toks) c = false := by
      refine Bool.eq_false_iff.mpr fun hmem => ?_
      exact plain_ne hplain (htoks c (List.contains_iff_mem.mp hmem)) rfl
    rw [hnot, Bool.and_false]
    rfl
  | operator tok c hc hfirst hret hs htokens =>
    have hc0 : c ≠ 0 := by
      rintro rfl
      cases tok with
      | word w => cases hc
      | _ => revert hc; decide
    dsimp only
    rw [htokens, hfirst, List.head?_cons, Option.any_some, hc, Option.any_some, decide_eq_true hc0, Bool.true_and]

theorem gettoken_skip (s : Ptr) : gettoken (skip s) = gettoken s := by
  have : skip (skip s) = skip s := List.dropWhile_idempotent (strchr whitespace) s
  rw [gettoken, gettoken, this]

theorem gettoken_nil (h0 : 0 ∉ s) (h : tokens s = []) : gettoken s = ⟨0, [], [], []⟩ := by
  cases scan h0 with
  | none htokens hskip hgot => exact hgot
  | word w hret hword hs htokens hfirst => cases h.symm.trans htokens
  | operator tok c hc hfirst hret hs htokens => cases h.symm.trans htokens

theorem skip_eq_nil (h0 : 0 ∉ s) : skip s = [] ↔ tokens s = [] := by
  constructor
  · intro h
    rw [← tokens_skip, h, tokens_nil]
  · intro h
    cases scan h0 with
    | none htokens hskip hgot => exact hskip
    | word w hret hword hs htokens hfirst => cases h.symm.trans htokens
    | operator tok c hc hfirst hret hs htokens => cases h.symm.trans htokens

theorem gettoken_cons {tok : Token} {ts : List Token} (h0 : 0 ∉ s) (h : tokens s = tok :: ts) :
    (gettoken s).ret = tok.code ∧ tokens (gettoken s).s = ts ∧ (gettoken s).s <:+ s ∧
      ∀ w, tok = .word w → Word s (gettoken s).q (gettoken s).eq w := by
  cases scan h0 with
  | none htokens hskip hgot => cases h.symm.trans htokens
  | word w hret hword hs htokens hfirst =>
    cases h.symm.trans htokens
    refine ⟨hret, rfl, hs, fun w' hw' => ?_⟩
    cases hw'
    exact hword
  | operator tok c hc hfirst hret hs htokens =>
    cases h.symm.trans htokens
    refine ⟨hret, rfl, hs, fun w' hw' => ?_⟩
    rw [hw'] at hc
    cases hc

/-! ### The command and the tree -/

/-- The command is the tree, with its words in the line. -/
inductive Shows (line : List UInt8) : Cmd → Tree → Prop
  | exec {argv : List (Ptr × Ptr)} {ws : List (List UInt8)} (h : List.Forall₂ (fun x w => Word line x.1 x.2 w) argv ws) :
      Shows line (.exec argv) (.exec ws)
  | redir {cmd : Cmd} {t : Tree} {file efile : Ptr} {w : List UInt8} (mode fd : Nat) (h : Shows line cmd t) (hw : Word line file efile w) :
      Shows line (.redir cmd file efile mode fd) (.redir t w mode fd)
  | pipe {left right : Cmd} {t u : Tree} (h : Shows line left t) (h' : Shows line right u) : Shows line (.pipe left right) (.pipe t u)
  | list {left right : Cmd} {t u : Tree} (h : Shows line left t) (h' : Shows line right u) : Shows line (.list left right) (.list t u)
  | back {cmd : Cmd} {t : Tree} (h : Shows line cmd t) : Shows line (.back cmd) (.back t)

/-- Both fail alike, or the command is the tree and the tokens are those that are left. -/
inductive Agrees (line : List UInt8) : Res (Cmd × Ptr) → Res (Tree × List Token) → Prop
  | ok {cmd : Cmd} {t : Tree} {s : Ptr} {ts : List Token} (h : Shows line cmd t) (hs : s <:+ line) (hts : tokens s = ts) :
      Agrees line (.ok (cmd, s)) (.ok (t, ts))
  | error (e : Stop) : Agrees line (.error e) (.error e)

variable {cmd : Cmd} {t : Tree} {x : Res (Cmd × Ptr)} {y : Res (Tree × List Token)}

theorem Agrees.bind {f : Cmd × Ptr → Res (Cmd × Ptr)} {g : Tree × List Token → Res (Tree × List Token)} (h : Agrees line x y)
    (hf : ∀ cmd t s, Shows line cmd t → s <:+ line → Agrees line (f (cmd, s)) (g (t, tokens s))) : Agrees line (x >>= f) (y >>= g) := by
  cases h with
  | @ok cmd t s ts h hs hts =>
    subst hts
    exact hf cmd t s h hs
  | error e => exact .error e

theorem Word.of_suffix {q eq : Ptr} {w : List UInt8} (h : Word s q eq w) (hs : s <:+ line) : Word line q eq w :=
  ⟨h.suffix.trans hs, h.split, h.plain, h.ends, h.token⟩

theorem Token.code_ne_zero (tok : Token) : tok.code ≠ 0 := by
  cases tok with
  | word w => exact (by decide : 'a'.toUInt8 ≠ 0)
  | _ => decide

theorem code_eq_word {tok : Token} : tok.code = 'a'.toUInt8 ↔ (Tokens.word? tok).isSome = true := by
  cases tok <;> simp [Token.code, Tokens.word?] <;> decide

theorem redircmd_shows {tok : Token} {op : List UInt8 → Redir} {q eq : Ptr} {w : List UInt8} (hcmd : Shows line cmd t)
    (hop : Tokens.redirOp tok = some op) (hw : Word line q eq w) : Shows line (redircmd tok.code cmd q eq) ((op w).apply t) := by
  cases tok <;> cases hop <;> exact .redir _ _ hcmd hw

abbrev Words (line : List UInt8) : List (Ptr × Ptr) → List (List UInt8) → Prop := List.Forall₂ fun x w => Word line x.1 x.2 w

theorem Shows.setArgv {argv : List (Ptr × Ptr)} {ws : List (List UInt8)} (hcmd : Shows line cmd t) (hargv : Words line argv ws) :
    Shows line (cmd.setArgv argv) (Tokens.setArgv ws t) := by
  induction hcmd with
  | exec h => exact .exec hargv
  | redir mode fd h hw ih => exact .redir mode fd ih hw
  | pipe h h' => exact .pipe h h'
  | list h h' => exact .list h h'
  | back h => exact .back h

theorem endArgs_agrees {argv : List (Ptr × Ptr)} {ws : List (List UInt8)} {ts : List Token} (hcmd : Shows line cmd t)
    (hargv : Words line argv ws) (hs : s <:+ line) (hts : tokens s = ts) : Agrees line (endArgs cmd argv s) (Tokens.endArgs t ws ts) := by
  rw [endArgs, Tokens.endArgs, hargv.length_eq]
  split
  · exact .ok (hcmd.setArgv hargv) hs hts
  · exact .error _

section Follow

variable (h0 : 0 ∉ line)
include h0

theorem not_mem_of_suffix (hs : s <:+ line) : 0 ∉ s := fun h => h0 (hs.subset h)

theorem peek_next {toks : String} (hs : s <:+ line) (tok : Token) (htoks : ∀ c ∈ chars toks, plain c = false)
    (htok : ∀ tok', tok'.first.any (strchr (chars toks)) = decide (tok' = tok)) : peek s toks = (Tokens.next tok (tokens s), skip s) := by
  rw [peek_eq (not_mem_of_suffix h0 hs) htoks]
  refine Prod.ext ?_ rfl
  cases tokens s with
  | nil => rfl
  | cons tok' ts =>
    rw [List.head?_cons, Option.any_some, htok, Tokens.next, List.head?_cons]
    simp

theorem parseredirs_agrees (k : Nat) (hcmd : Shows line cmd t) (hs : s <:+ line) :
    Agrees line (parseredirs k cmd s) (Tokens.parseredirs k t (tokens s)) := by
  induction k generalizing cmd t s with
  | zero => exact .error _
  | succ k ih =>
    have hskip : skip s <:+ line := (skip_suffix s).trans hs
    have hs0 := not_mem_of_suffix h0 hs
    rw [parseredirs, peek_eq hs0 (by decide)]
    dsimp only
    rw [gettoken_skip]
    cases htokens : tokens s with
    | nil => exact .ok hcmd hskip ((tokens_skip s).trans htokens)
    | cons tok ts =>
      have hpeek : tok.first.any (strchr (chars "<>")) = (Tokens.redirOp tok).isSome := by cases tok <;> rfl
      rw [Tokens.parseredirs, List.head?_cons, Option.any_some, hpeek]
      cases hop : Tokens.redirOp tok with
      | none => exact .ok hcmd hskip ((tokens_skip s).trans htokens)
      | some op =>
        obtain ⟨hret, hts, hsuffix, -⟩ := gettoken_cons hs0 htokens
        have hs' := hsuffix.trans hs
        have hs0' := not_mem_of_suffix h0 hs'
        dsimp only [Option.isSome_some]
        rw [if_pos rfl]
        cases ts with
        | nil =>
          rw [gettoken_nil hs0' hts]
          exact .error _
        | cons tok' ts =>
          obtain ⟨hret', hts', hsuffix', hword⟩ := gettoken_cons hs0' hts
          rw [hret', List.head?_cons, Option.bind_some]
          cases hw : Tokens.word? tok' with
          | none =>
            rw [if_pos]
            · exact .error _
            · rw [Ne, code_eq_word, hw]
              exact Bool.false_ne_true
          | some w =>
            obtain rfl := Tokens.word?_eq hw
            rw [if_neg (fun h => h rfl), hret, List.tail_cons, ← hts']
            exact ih (redircmd_shows hcmd hop ((hword w rfl).of_suffix hs')) (hsuffix'.trans hs')

theorem parseargs_agrees (k : Nat) {argv : List (Ptr × Ptr)} {ws : List (List UInt8)} (hcmd : Shows line cmd t)
    (hargv : Words line argv ws) (hs : s <:+ line) : Agrees line (parseargs k cmd argv s) (Tokens.parseargs k t ws (tokens s)) := by
  induction k generalizing cmd t argv ws s with
  | zero => exact .error _
  | succ k ih =>
    have hskip : skip s <:+ line := (skip_suffix s).trans hs
    have hs0 := not_mem_of_suffix h0 hs
    rw [parseargs, peek_eq hs0 (by decide)]
    dsimp only
    rw [gettoken_skip]
    cases htokens : tokens s with
    | nil =>
      rw [gettoken_nil hs0 htokens]
      exact endArgs_agrees hcmd hargv List.nil_suffix tokens_nil
    | cons tok ts =>
      obtain ⟨hret, hts, hsuffix, hword⟩ := gettoken_cons hs0 htokens
      have hs' := hsuffix.trans hs
      have hpeek : tok.first.any (strchr (chars "|)&;")) = Tokens.endsArgs tok := by cases tok <;> rfl
      rw [Tokens.parseargs, List.head?_cons, Option.any_some, hpeek, hret]
      by_cases hends : Tokens.endsArgs tok = true
      · rw [if_pos hends, if_pos hends]
        exact endArgs_agrees hcmd hargv hskip ((tokens_skip s).trans htokens)
      · rw [if_neg hends, if_neg hends, if_neg tok.code_ne_zero]
        cases hw : Tokens.word? tok with
        | none =>
          rw [if_pos]
          · exact .error _
          · rw [Ne, code_eq_word, hw]
            exact Bool.false_ne_true
        | some w =>
          obtain rfl := Tokens.word?_eq hw
          have hargv' : Words line (argv ++ [((gettoken s).q, (gettoken s).eq)]) (ws ++ [w]) :=
            List.rel_append hargv (.cons ((hword w rfl).of_suffix hs) .nil)
          dsimp only
          rw [if_neg (fun h => h rfl), setArg, Tokens.setArg, hargv.length_eq]
          split
          · rw [Tokens.ok_bind, Tokens.ok_bind, hargv'.length_eq]
            split
            · exact .error _
            · rw [← hts]
              exact (parseredirs_agrees h0 k hcmd hs').bind fun cmd t s hcmd hs => ih hcmd hargv' hs
          · exact .error _

theorem gettoken_next {tok : Token} (hs : s <:+ line) (hnext : Tokens.next tok (tokens s) = true) :
    (gettoken s).s <:+ line ∧ tokens (gettoken s).s = (tokens s).tail := by
  obtain ⟨-, hts, hsuffix, -⟩ := gettoken_cons (not_mem_of_suffix h0 hs) (Tokens.next_iff.mp hnext)
  exact ⟨hsuffix.trans hs, hts⟩

theorem parseback_agrees (k : Nat) (hcmd : Shows line cmd t) (hs : s <:+ line) :
    Agrees line (parseback k cmd s) (Tokens.parseback k t (tokens s)) := by
  induction k generalizing cmd t s with
  | zero => exact .error _
  | succ k ih =>
    have hskip : skip s <:+ line := (skip_suffix s).trans hs
    rw [parseback, Tokens.parseback, peek_next h0 hs .amp (by decide) (fun tok => by cases tok <;> rfl)]
    dsimp only
    rw [gettoken_skip]
    split
    · rename_i hamp
      obtain ⟨hs', hts⟩ := gettoken_next h0 hs hamp
      rw [← hts]
      exact ih (.back hcmd) hs'
    · exact .ok hcmd hskip (tokens_skip s)

/-- Each function follows the one on tokens. -/
theorem parse_agrees (k : Nat) :
    (∀ s, s <:+ line → Agrees line (parseline k s) (Tokens.parseline k (tokens s))) ∧
    (∀ s, s <:+ line → Agrees line (parsepipe k s) (Tokens.parsepipe k (tokens s))) ∧
    (∀ s, s <:+ line → Agrees line (parseexec k s) (Tokens.parseexec k (tokens s))) ∧
    ∀ s, s <:+ line → Agrees line (parseblock k s) (Tokens.parseblock k (tokens s)) := by
  induction k with
  | zero => exact ⟨fun _ _ => .error _, fun _ _ => .error _, fun _ _ => .error _, fun _ _ => .error _⟩
  | succ k ih =>
    obtain ⟨ihline, ihpipe, ihexec, ihblock⟩ := ih
    refine ⟨fun s hs => ?_, fun s hs => ?_, fun s hs => ?_, fun s hs => ?_⟩
    · rw [parseline, Tokens.parseline]
      refine (ihpipe s hs).bind fun cmd t s hcmd hs => (parseback_agrees h0 k hcmd hs).bind fun cmd t s hcmd hs => ?_
      dsimp only
      rw [peek_next h0 hs .semi (by decide) (fun tok => by cases tok <;> rfl)]
      dsimp only
      rw [gettoken_skip]
      split
      · rename_i hsemi
        obtain ⟨hs', hts⟩ := gettoken_next h0 hs hsemi
        rw [← hts]
        exact (ihline _ hs').bind fun right u s hright hs => .ok (.list hcmd hright) hs rfl
      · exact .ok hcmd ((skip_suffix s).trans hs) (tokens_skip s)
    · rw [parsepipe, Tokens.parsepipe]
      refine (ihexec s hs).bind fun cmd t s hcmd hs => ?_
      dsimp only
      rw [peek_next h0 hs .bar (by decide) (fun tok => by cases tok <;> rfl)]
      dsimp only
      rw [gettoken_skip]
      split
      · rename_i hbar
        obtain ⟨hs', hts⟩ := gettoken_next h0 hs hbar
        rw [← hts]
        exact (ihpipe _ hs').bind fun right u s hright hs => .ok (.pipe hcmd hright) hs rfl
      · exact .ok hcmd ((skip_suffix s).trans hs) (tokens_skip s)
    · have hskip : skip s <:+ line := (skip_suffix s).trans hs
      rw [parseexec, Tokens.parseexec, peek_next h0 hs .lparen (by decide) (fun tok => by cases tok <;> rfl), ← tokens_skip s]
      dsimp only
      split
      · exact ihblock _ hskip
      · exact (parseredirs_agrees h0 k (.exec .nil) hskip).bind fun ret t s hret hs => parseargs_agrees h0 k hret .nil hs
    · rw [parseblock, Tokens.parseblock, peek_next h0 hs .lparen (by decide) (fun tok => by cases tok <;> rfl)]
      dsimp only
      rw [gettoken_skip]
      split
      · rename_i hl
        obtain ⟨hs', hts⟩ := gettoken_next h0 hs hl
        rw [← hts]
        refine (ihline _ hs').bind fun cmd t s hcmd hs => ?_
        dsimp only
        rw [peek_next h0 hs .rparen (by decide) (fun tok => by cases tok <;> rfl)]
        dsimp only
        rw [gettoken_skip]
        split
        · rename_i hr
          obtain ⟨hs', hts⟩ := gettoken_next h0 hs hr
          rw [← hts]
          exact parseredirs_agrees h0 k hcmd hs'
        · exact .error _
      · exact .error _

end Follow

/-! ### The words in memory -/

def Cmd.ends : Cmd → List Ptr
  | .exec argv => argv.map Prod.snd
  | .redir cmd _ efile _ _ => cmd.ends ++ [efile]
  | .pipe left right => left.ends ++ right.ends
  | .list left right => left.ends ++ right.ends
  | .back cmd => cmd.ends

/-- The words, by where they start and where they end. -/
def Cmd.words : Cmd → List (Ptr × Ptr)
  | .exec argv => argv
  | .redir cmd file efile _ _ => cmd.words ++ [(file, efile)]
  | .pipe left right => left.words ++ right.words
  | .list left right => left.words ++ right.words
  | .back cmd => cmd.words

theorem Cmd.ends_eq (cmd : Cmd) : cmd.ends = cmd.words.map Prod.snd := by
  induction cmd <;> simp_all [Cmd.ends, Cmd.words]

/-- The command, with the strings at its pointers. -/
def Cmd.read (es : Nat) (buf : Buf) : Cmd → Tree
  | .exec argv => .exec (argv.map fun x => buf.string es x.1)
  | .redir cmd file _ mode fd => .redir (cmd.read es buf) (buf.string es file) mode fd
  | .pipe left right => .pipe (left.read es buf) (right.read es buf)
  | .list left right => .list (left.read es buf) (right.read es buf)
  | .back cmd => .back (cmd.read es buf)

variable {es : Nat} {buf : Buf}

theorem nulterminate_eq (cmd : Cmd) (buf : Buf) : nulterminate es cmd buf = cmd.ends.foldl (Buf.clear es) buf := by
  induction cmd generalizing buf with
  | exec argv => rw [nulterminate, Cmd.ends, List.foldl_map]
  | redir cmd file efile mode fd ih => rw [nulterminate, Cmd.ends, List.foldl_append, ih]; rfl
  | pipe left right ih ih' => rw [nulterminate, Cmd.ends, List.foldl_append, ih, ih']
  | list left right ih ih' => rw [nulterminate, Cmd.ends, List.foldl_append, ih, ih']
  | back cmd ih => exact ih buf

def Kept (line : List UInt8) (buf : Buf) : Prop := ∀ i c, (line)[i]? = some c → plain c = true → buf i = c

theorem Kept.clear {p : Ptr} (h : Kept line buf) (hp : p <:+ line) (hends : ∀ c ∈ p.head?, plain c = false) :
    Kept line (buf.clear line.length p) := by
  intro i c hc hplain
  obtain ⟨a, rfl⟩ := hp
  rw [Buf.clear, Function.update_of_ne]
  · exact h i c hc hplain
  · rintro rfl
    rw [List.length_append, Nat.add_sub_cancel, List.getElem?_append_right (Nat.le_refl _), Nat.sub_self] at hc
    rw [hends c (List.head?_eq_getElem? ▸ hc)] at hplain
    cases hplain

theorem clear_self (p : Ptr) : buf.clear es p (es - p.length) = 0 := Function.update_self ..

theorem foldl_clear {ps : List Ptr} (h : Kept line buf) (hps : ∀ p ∈ ps, p <:+ line ∧ ∀ c ∈ p.head?, plain c = false) :
    Kept line (ps.foldl (Buf.clear line.length) buf) := by
  induction ps generalizing buf with
  | nil => exact h
  | cons p ps ih =>
    obtain ⟨hp, hends⟩ := hps p List.mem_cons_self
    exact ih (h.clear hp hends) fun q hq => hps q (List.mem_cons_of_mem p hq)

theorem foldl_clear_zero {ps : List Ptr} {i : Nat} (h : buf i = 0 ∨ ∃ p ∈ ps, es - p.length = i) : ps.foldl (Buf.clear es) buf i = 0 := by
  induction ps generalizing buf with
  | nil =>
    rcases h with h | ⟨p, hp, -⟩
    · exact h
    · cases hp
  | cons p ps ih =>
    refine ih ?_
    by_cases hi : es - p.length = i
    · exact .inl (hi ▸ clear_self p)
    · rcases h with h | ⟨q, hq, hqi⟩
      · exact .inl ((Function.update_of_ne (Ne.symm hi) ..).trans h)
      · rcases List.mem_cons.mp hq with rfl | hq
        · exact absurd hqi hi
        · exact .inr ⟨q, hq, hqi⟩

theorem Word.ends_suffix {q eq : Ptr} {w : List UInt8} (h : Word line q eq w) : eq <:+ line :=
  (List.suffix_append w eq).trans (h.split ▸ h.suffix)

theorem Words.word {argv : List (Ptr × Ptr)} {ws : List (List UInt8)} (h : Words line argv ws) {x : Ptr × Ptr} (hx : x ∈ argv) :
    ∃ w, Word line x.1 x.2 w := by
  induction h with
  | nil => cases hx
  | cons hw _ ih =>
    rcases List.mem_cons.mp hx with rfl | hx
    · exact ⟨_, hw⟩
    · exact ih hx

theorem Shows.word (h : Shows line cmd t) : ∀ x ∈ cmd.words, ∃ w, Word line x.1 x.2 w := by
  induction h with
  | exec h => exact fun x hx => Words.word h hx
  | redir mode fd h hw ih =>
    intro x hx
    rcases List.mem_append.mp hx with hx | hx
    · exact ih x hx
    · obtain rfl := List.mem_singleton.mp hx
      exact ⟨_, hw⟩
  | pipe h h' ih ih' => exact fun x hx => (List.mem_append.mp hx).elim (ih x) (ih' x)
  | list h h' ih ih' => exact fun x hx => (List.mem_append.mp hx).elim (ih x) (ih' x)
  | back h ih => exact ih

theorem Shows.ends (h : Shows line cmd t) : ∀ p ∈ cmd.ends, p <:+ line ∧ ∀ c ∈ p.head?, plain c = false := by
  intro p hp
  rw [Cmd.ends_eq] at hp
  obtain ⟨x, hx, rfl⟩ := List.mem_map.mp hp
  obtain ⟨w, hw⟩ := h.word x hx
  exact ⟨hw.ends_suffix, hw.ends⟩

theorem takeWhile_range {w : List UInt8} {n b : Nat} (hw : ∀ i c, w[i]? = some c → buf (b + i) = c ∧ c ≠ 0) (hlen : w.length ≤ n)
    (hend : w.length < n → buf (b + w.length) = 0) : ((List.range n).map fun i => buf (b + i)).takeWhile (· ≠ 0) = w := by
  induction w generalizing n b with
  | nil =>
    cases n with
    | zero => rfl
    | succ n =>
      have := hend (Nat.succ_pos n)
      rw [List.range_succ_eq_map, List.map_cons, List.takeWhile_cons_of_neg]
      simpa using this
  | cons c w ih =>
    obtain ⟨n, rfl⟩ : ∃ m, n = m + 1 := ⟨n - 1, by rw [List.length_cons] at hlen; omega⟩
    obtain ⟨hc, hc0⟩ := hw 0 c rfl
    have hrest := ih (n := n) (b := b + 1) (fun i d hd => by
        rw [Nat.add_assoc, Nat.add_comm 1 i]
        exact hw (i + 1) d hd) (Nat.le_of_succ_le_succ hlen) (fun h => by
        rw [Nat.add_assoc, Nat.add_comm 1 w.length]
        exact hend (Nat.succ_lt_succ h))
    rw [List.range_succ_eq_map, List.map_cons, List.takeWhile_cons_of_pos]
    · rw [hc, List.map_map, ← hrest]
      simp only [Function.comp_def, Nat.succ_eq_add_one, Nat.add_assoc, Nat.add_comm 1]
    · rw [hc]
      exact decide_eq_true hc0

theorem Word.string {q eq : Ptr} {w : List UInt8} (h : Word line q eq w) (h0 : 0 ∉ line) (hbuf : Kept line buf)
    (hend : buf (line.length - eq.length) = 0) : buf.string line.length q = w := by
  obtain ⟨a, hline⟩ := h.suffix
  rw [h.split] at hline
  have hlen : line.length - q.length = a.length := by
    rw [← hline, h.split, List.length_append, Nat.add_sub_cancel]
  have hget : ∀ {i c}, w[i]? = some c → (line)[a.length + i]? = some c := by
    intro i c hc
    rw [← hline, List.getElem?_append_right (Nat.le_add_right ..), Nat.add_sub_cancel_left]
    rw [List.getElem?_append_left (List.getElem?_eq_some_iff.mp hc).1]
    exact hc
  rw [Buf.string, hlen]
  refine takeWhile_range ?_ ?_ ?_
  · intro i c hc
    refine ⟨hbuf _ _ (hget hc) (h.plain c (List.mem_of_getElem? hc)), ?_⟩
    rintro rfl
    exact h0 (List.mem_of_getElem? (hget hc))
  · rw [h.split, List.length_append]
    omega
  · intro _
    rw [← hend, ← hline, List.length_append, List.length_append]
    congr 1
    omega

theorem Shows.read_eq (h : Shows line cmd t) (h0 : 0 ∉ line) (hbuf : Kept line buf)
    (hends : ∀ p ∈ cmd.ends, buf (line.length - p.length) = 0) : cmd.read line.length buf = t := by
  induction h with
  | @exec argv ws h =>
    rw [Cmd.read]
    congr 1
    induction h with
    | nil => rfl
    | cons hw _ ih =>
      rw [List.map_cons, hw.string h0 hbuf (hends _ List.mem_cons_self), ih fun p hp => hends p (List.mem_cons_of_mem _ hp)]
  | redir mode fd h hw ih =>
    rw [Cmd.read, ih fun p hp => hends p (List.mem_append_left _ hp),
      hw.string h0 hbuf (hends _ (List.mem_append_right _ List.mem_cons_self))]
  | pipe h h' ih ih' =>
    rw [Cmd.read, ih fun p hp => hends p (List.mem_append_left _ hp), ih' fun p hp => hends p (List.mem_append_right _ hp)]
  | list h h' ih ih' =>
    rw [Cmd.read, ih fun p hp => hends p (List.mem_append_left _ hp), ih' fun p hp => hends p (List.mem_append_right _ hp)]
  | back h ih => rw [Cmd.read, ih hends]

theorem Shows.nulterminate (h : Shows line cmd t) :
    Kept line (Sh.nulterminate line.length cmd fun i => line.getD i 0) ∧
    ∀ p ∈ cmd.ends, Sh.nulterminate line.length cmd (fun i => line.getD i 0) (line.length - p.length) = 0 := by
  have hkept : Kept line fun i => line.getD i 0 := by
    intro i c hc _
    dsimp only
    rw [List.getD_eq_getElem?_getD, hc]
    rfl
  rw [nulterminate_eq]
  exact ⟨foldl_clear hkept h.ends, fun p hp => foldl_clear_zero (.inr ⟨p, hp, rfl⟩)⟩

/-- The tree that `parsecmd` returns: the command, with the strings that are in memory then. -/
def parsed (k : Nat) (line : List UInt8) : Res Tree := do
  let (cmd, buf) ← parsecmd k line
  .ok (cmd.read line.length buf)

theorem parsed_eq (h0 : 0 ∉ line) (k : Nat) : parsed k line = Tokens.parsecmd k (tokens line) := by
  have hagrees := (parse_agrees h0 k).1 line (List.suffix_refl line)
  rw [parsed, parsecmd, Tokens.parsecmd]
  generalize parseline k line = x at hagrees
  generalize Tokens.parseline k (tokens line) = y at hagrees
  cases hagrees with
  | error e => rfl
  | @ok cmd t s ts h hs hts =>
    subst hts
    have hnil := skip_eq_nil (not_mem_of_suffix h0 hs)
    change ((if skip s ≠ [] then .error (.panic "syntax") else .ok (cmd, nulterminate line.length cmd fun i => line.getD i 0) :
      Res (Cmd × Buf)) >>= fun x => .ok (x.1.read line.length x.2)) = if tokens s ≠ [] then .error (.panic "syntax") else .ok t
    by_cases hskip : skip s = []
    · rw [if_neg (not_not_intro hskip), if_neg (not_not_intro (hnil.mp hskip)), Tokens.ok_bind]
      exact congrArg Except.ok (h.read_eq h0 h.nulterminate.1 h.nulterminate.2)
    · rw [if_pos hskip, if_pos (mt hnil.mpr hskip)]
      rfl

theorem parsed_eq_ok (h : parsed k line = .ok t) : ∃ cmd buf, parsecmd k line = .ok (cmd, buf) ∧ cmd.read line.length buf = t := by
  obtain ⟨⟨cmd, buf⟩, hcmd, h⟩ := Tokens.bind_eq_ok.mp h
  cases h
  exact ⟨cmd, buf, hcmd, rfl⟩

theorem parsed_eq_error {e : Stop} (h : parsed k line = .error e) : parsecmd k line = .error e := by
  rw [parsed] at h
  cases hcmd : parsecmd k line with
  | ok x =>
    rw [hcmd] at h
    cases h
  | error e' =>
    rw [hcmd] at h
    cases h
    rfl

/-- A cut of the line that is between two tokens, or at an end. -/
def Between (a b : List UInt8) : Prop := tokens (a ++ b) = tokens a ++ tokens b

theorem tokens_between {a b ws : List UInt8} (hws : ∀ c ∈ ws, c ∈ whitespace) (h : ws = [] → Between a b) :
    tokens (a ++ ws ++ b) = tokens a ++ tokens b := by
  by_cases hne : ws = []
  · rw [hne, List.append_nil]
    exact h hne
  · exact tokens_append_white a b (fun c hc => List.contains_iff_mem.mpr (hws c hc)) hne

/-- `parsecmd` returns the tree of the line, if it has one, and panics if not. Whitespace between two tokens does not matter. -/
theorem parsecmd_grammar (h0 : 0 ∉ line) (hk : 4 * line.length + 4 ≤ k) :
    ((∃ cmd buf, parsecmd k line = .ok (cmd, buf) ∧ Derives .line (tokens line) (cmd.read line.length buf) ∧
        ∀ u, Derives .line (tokens line) u → u = cmd.read line.length buf) ∨
      (∃ msg, parsecmd k line = .error (.panic msg)) ∧ ∀ t, ¬Derives .line (tokens line) t) ∧
    ∀ a ws ws' b, line = a ++ ws ++ b → (∀ c ∈ ws ++ ws', c ∈ whitespace) → (ws = [] ∨ ws' = [] → Between a b) →
      parsed k (a ++ ws' ++ b) = parsed k line := by
  constructor
  · have hlen := length_tokens_le line
    rcases Tokens.parsecmd_decides (show 4 * (tokens line).length + 4 ≤ k by omega) with ⟨t, ht, hderives⟩ | ⟨⟨msg, hmsg⟩, hnot⟩
    · obtain ⟨cmd, buf, hcmd, rfl⟩ := parsed_eq_ok ((parsed_eq h0 k).trans ht)
      exact .inl ⟨cmd, buf, hcmd, hderives, fun u hu => Tokens.derives_unique hu hderives⟩
    · exact .inr ⟨⟨msg, parsed_eq_error ((parsed_eq h0 k).trans hmsg)⟩, hnot⟩
  · rintro a ws ws' b rfl hws hbetween
    have h0' : 0 ∉ a ++ ws' ++ b := by
      have hwhite : 0 ∉ ws' := fun h => absurd (hws 0 (List.mem_append_right ws h)) (by decide)
      simp only [List.mem_append, not_or] at h0 ⊢
      exact ⟨⟨h0.1.1, hwhite⟩, h0.2⟩
    rw [parsed_eq h0, parsed_eq h0', tokens_between (fun c hc => hws c (List.mem_append_right ws hc)) fun h => hbetween (.inr h),
      tokens_between (fun c hc => hws c (List.mem_append_left ws' hc)) fun h => hbetween (.inl h)]

theorem parsecmd_list : parsed 40 (chars "ls >f;wc") =
      .ok (.list (.redir (.exec [chars "ls"]) (chars "f") (O_WRONLY ||| O_CREATE) 1) (.exec [chars "wc"])) ∧
    Derives .line (tokens (chars "ls >f;wc"))
      (.list (.redir (.exec [chars "ls"]) (chars "f") (O_WRONLY ||| O_CREATE) 1) (.exec [chars "wc"])) := by
  have hparsed : parsed 40 (chars "ls >f;wc") =
      .ok (.list (.redir (.exec [chars "ls"]) (chars "f") (O_WRONLY ||| O_CREATE) 1) (.exec [chars "wc"])) := rfl
  refine ⟨hparsed, ?_⟩
  have h0 : 0 ∉ chars "ls >f;wc" := by decide
  rcases (parsecmd_grammar (k := 40) h0 (by decide)).1 with ⟨cmd, buf, h, hderives, -⟩ | ⟨⟨msg, h⟩, -⟩
  · rw [parsed, h] at hparsed
    exact Except.ok.inj hparsed ▸ hderives
  · rw [parsed, h] at hparsed
    cases hparsed

/-! ### The strings -/

theorem parsecmd_shows (h0 : 0 ∉ line) (h : parsecmd k line = .ok (cmd, buf)) :
    (∃ t, Shows line cmd t) ∧ buf = nulterminate line.length cmd fun i => line.getD i 0 := by
  obtain ⟨⟨cmd', s⟩, hline, h⟩ := Tokens.bind_eq_ok.mp h
  have hagrees := (parse_agrees h0 k).1 line (List.suffix_refl line)
  rw [hline] at hagrees
  generalize Tokens.parseline k (tokens line) = y at hagrees
  dsimp only at h
  split at h
  · cases h
  · cases h
    cases hagrees with
    | ok h hs hts => exact ⟨⟨_, h⟩, rfl⟩

theorem ends_at {p : Ptr} (hp : p <:+ line) (hends : ∀ c ∈ p.head?, plain c = false) :
    line.length - p.length = line.length ∨ ∃ c, (line)[line.length - p.length]? = some c ∧ (c ∈ whitespace ∨ c ∈ symbols) := by
  obtain ⟨a, rfl⟩ := hp
  cases p with
  | nil => exact .inl rfl
  | cons c r =>
    refine .inr ⟨c, ?_, ?_⟩
    · rw [List.length_append, Nat.add_sub_cancel, List.getElem?_append_right (Nat.le_refl _), Nat.sub_self]
      rfl
    · have := hends c rfl
      rw [plain, Bool.and_eq_false_iff, Bool.not_eq_false', Bool.not_eq_false'] at this
      exact this.imp List.contains_iff_mem.mp List.contains_iff_mem.mp

/-- The strings of a command that `parsecmd` returns are the words of the line, in the places the grammar gives them: each is
    what stands between the pointers that `gettoken` gave. Only characters behind words are overwritten. -/
theorem parsecmd_strings (h0 : 0 ∉ line) (h : parsecmd k line = .ok (cmd, buf)) :
    Derives .line (tokens line) (cmd.read line.length buf) ∧
    (∀ x ∈ cmd.words, ∃ w, x.1 <:+ line ∧ x.1 = w ++ x.2 ∧ tokens x.1 = .word w :: tokens x.2 ∧ buf.string line.length x.1 = w) ∧
    ∃ ps : List Nat, (∀ p ∈ ps, p = line.length ∨ ∃ c, (line)[p]? = some c ∧ (c ∈ whitespace ∨ c ∈ symbols)) ∧
      buf = ps.foldl (fun buf p => Function.update buf p 0) fun i => line.getD i 0 := by
  obtain ⟨⟨t, hshows⟩, hbuf⟩ := parsecmd_shows h0 h
  refine ⟨?_, fun x hx => ?_, cmd.ends.map (line.length - ·.length), fun p hp => ?_, ?_⟩
  · have hparsed : parsed k line = .ok (cmd.read line.length buf) := by
      rw [parsed, h]
      rfl
    rw [parsed_eq h0] at hparsed
    obtain ⟨⟨u, ts⟩, hline, hend⟩ := Tokens.bind_eq_ok.mp hparsed
    dsimp only at hend
    split at hend
    · cases hend
    · rename_i hnil
      cases hend
      obtain ⟨us, hus, hderives⟩ := (Tokens.parse_sound k).1 hline
      rw [not_not.mp hnil, List.append_nil] at hus
      exact hus ▸ hderives
  · obtain ⟨w, hw⟩ := hshows.word x hx
    have hend : x.2 ∈ cmd.ends := cmd.ends_eq ▸ List.mem_map_of_mem hx
    rw [hbuf]
    exact ⟨w, hw.suffix, hw.split, hw.token, hw.string h0 hshows.nulterminate.1 (hshows.nulterminate.2 _ hend)⟩
  · obtain ⟨q, hq, rfl⟩ := List.mem_map.mp hp
    obtain ⟨hsuffix, hends⟩ := hshows.ends q hq
    exact ends_at hsuffix hends
  · rw [hbuf, nulterminate_eq, List.foldl_map]
    rfl

theorem parsecmd_strings_list : ∃ cmd buf, parsecmd 40 (chars "ls >f;wc") = .ok (cmd, buf) ∧
    ∀ x ∈ cmd.words, ∃ w, x.1 = w ++ x.2 ∧ buf.string 8 x.1 = w := by
  have hok : ∃ r, parsecmd 40 (chars "ls >f;wc") = .ok r := ⟨_, rfl⟩
  obtain ⟨⟨cmd, buf⟩, h⟩ := hok
  refine ⟨cmd, buf, h, fun x hx => ?_⟩
  obtain ⟨w, -, hsplit, -, hstring⟩ := (parsecmd_strings (by decide) h).2.1 x hx
  exact ⟨w, hsplit, hstring⟩

end Sh
end Xv6
