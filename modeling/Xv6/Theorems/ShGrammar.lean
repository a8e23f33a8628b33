import Mathlib.Data.List.Basic
import Mathlib.Logic.Function.Iterate
import Xv6.Sh

/-! The grammar of the shell's commands, and a parser for it that works on tokens. -/

namespace Xv6
namespace Sh

inductive Token where
  | word (w : List UInt8)
  | lt | gt | gtgt | bar | amp | semi | lparen | rparen
  deriving DecidableEq

/-- A command, with its words as strings. -/
inductive Tree where
  | exec (argv : List (List UInt8))
  | redir (t : Tree) (file : List UInt8) (mode fd : Nat)
  | pipe (left right : Tree)
  | list (left right : Tree)
  | back (t : Tree)

/-! ### The grammar -/

inductive Redir where
  | lt (file : List UInt8)
  | gt (file : List UInt8)
  | gtgt (file : List UInt8)

def Redir.tokens : Redir → List Token
  | .lt w => [.lt, .word w]
  | .gt w => [.gt, .word w]
  | .gtgt w => [.gtgt, .word w]

def Redir.apply (t : Tree) : Redir → Tree
  | .lt w => .redir t w O_RDONLY 0
  | .gt w | .gtgt w => .redir t w (O_WRONLY ||| O_CREATE) 1

def redirTokens (rs : List Redir) : List Token := rs.flatMap Redir.tokens

def argTokens (args : List (List UInt8 × List Redir)) : List Token := args.flatMap fun x => .word x.1 :: redirTokens x.2

inductive Nonterminal where
  | line | pipe | exec

inductive Derives : Nonterminal → List Token → Tree → Prop
  | line {ts : List Token} {t : Tree} (n : Nat) (h : Derives .pipe ts t) :
      Derives .line (ts ++ List.replicate n .amp) (Tree.back^[n] t)
  | lines {ts us : List Token} {t u : Tree} (n : Nat) (h : Derives .pipe ts t) (h' : Derives .line us u) :
      Derives .line (ts ++ (List.replicate n .amp ++ .semi :: us)) (.list (Tree.back^[n] t) u)
  | pipe {ts : List Token} {t : Tree} (h : Derives .exec ts t) : Derives .pipe ts t
  | pipes {ts us : List Token} {t u : Tree} (h : Derives .exec ts t) (h' : Derives .pipe us u) :
      Derives .pipe (ts ++ .bar :: us) (.pipe t u)
  | block {ts : List Token} {t : Tree} (h : Derives .line ts t) (rs : List Redir) :
      Derives .exec (.lparen :: (ts ++ .rparen :: redirTokens rs)) (rs.foldl Redir.apply t)
  | exec (rs : List Redir) (args : List (List UInt8 × List Redir)) (hargs : args.length < MAXARGS) :
      Derives .exec (redirTokens rs ++ argTokens args) ((rs ++ args.flatMap Prod.snd).foldl Redir.apply (.exec (args.map Prod.fst)))

/-! ### The parser on tokens -/

namespace Tokens

def redirOp : Token → Option (List UInt8 → Redir)
  | .lt => some .lt
  | .gt => some .gt
  | .gtgt => some .gtgt
  | _ => none

def word? : Token → Option (List UInt8)
  | .word w => some w
  | _ => none

/-- The token comes next. -/
def next (tok : Token) (ts : List Token) : Bool := ts.head? = some tok

/-! The functions of `sh.c`, with the tokens that are left for `*ps`. -/

def parseredirs : Nat → Tree → List Token → Res (Tree × List Token)
  | 0, _, _ => .error .rounds
  | _ + 1, t, [] => .ok (t, [])
  | k + 1, t, tok :: ts =>
    match redirOp tok with
    | none => .ok (t, tok :: ts)
    | some r =>
      match ts.head?.bind word? with
      | some w => parseredirs k ((r w).apply t) ts.tail
      | none => .error (.panic "missing file for redirection")

def setArgv (argv : List (List UInt8)) : Tree → Tree
  | .exec _ => .exec argv
  | .redir t file mode fd => .redir (setArgv argv t) file mode fd
  | t => t

def setArg (argv : List (List UInt8)) (w : List UInt8) : Res (List (List UInt8)) :=
  if argv.length < MAXARGS then .ok (argv ++ [w]) else .error .outOfBounds

def endArgs (ret : Tree) (argv : List (List UInt8)) (ts : List Token) : Res (Tree × List Token) :=
  if argv.length < MAXARGS then .ok (setArgv argv ret, ts) else .error .outOfBounds

def endsArgs : Token → Bool
  | .bar | .rparen | .amp | .semi => true
  | _ => false

def parseargs : Nat → Tree → List (List UInt8) → List Token → Res (Tree × List Token)
  | 0, _, _, _ => .error .rounds
  | _ + 1, ret, argv, [] => endArgs ret argv []
  | k + 1, ret, argv, tok :: ts =>
    if endsArgs tok then endArgs ret argv (tok :: ts)
    else
      match word? tok with
      | some w => do
        let argv ← setArg argv w
        if argv.length ≥ MAXARGS then .error (.panic "too many args")
        else do
          let (ret, ts) ← parseredirs k ret ts
          parseargs k ret argv ts
      | none => .error (.panic "syntax")

def parseback : Nat → Tree → List Token → Res (Tree × List Token)
  | 0, _, _ => .error .rounds
  | k + 1, t, ts => if next .amp ts then parseback k (.back t) ts.tail else .ok (t, ts)

mutual

def parseline : Nat → List Token → Res (Tree × List Token)
  | 0, _ => .error .rounds
  | k + 1, ts => do
    let (t, ts) ← parsepipe k ts
    let (t, ts) ← parseback k t ts
    if next .semi ts then do
      let (u, ts) ← parseline k ts.tail
      .ok (.list t u, ts)
    else .ok (t, ts)

def parsepipe : Nat → List Token → Res (Tree × List Token)
  | 0, _ => .error .rounds
  | k + 1, ts => do
    let (t, ts) ← parseexec k ts
    if next .bar ts then do
      let (u, ts) ← parsepipe k ts.tail
      .ok (.pipe t u, ts)
    else .ok (t, ts)

def parseexec : Nat → List Token → Res (Tree × List Token)
  | 0, _ => .error .rounds
  | k + 1, ts =>
    if next .lparen ts then parseblock k ts
    else do
      let (ret, ts) ← parseredirs k (.exec []) ts
      parseargs k ret [] ts

def parseblock : Nat → List Token → Res (Tree × List Token)
  | 0, _ => .error .rounds
  | k + 1, ts =>
    if next .lparen ts then do
      let (t, ts) ← parseline k ts.tail
      if next .rparen ts then parseredirs k t ts.tail else .error (.panic "syntax - missing )")
    else .error (.panic "parseblock")

end

def parsecmd (k : Nat) (ts : List Token) : Res Tree := do
  let (t, ts) ← parseline k ts
  if ts ≠ [] then .error (.panic "syntax") else .ok t

/-! ### What it accepts -/

theorem bind_eq_ok {α β : Type} {x : Res α} {f : α → Res β} {b : β} : x >>= f = .ok b ↔ ∃ a, x = .ok a ∧ f a = .ok b := by
  cases x with
  | error e =>
    constructor
    · intro h
      cases h
    · rintro ⟨_, h, -⟩
      cases h
  | ok a =>
    constructor
    · exact fun h => ⟨a, rfl, h⟩
    · rintro ⟨_, h, h'⟩
      cases h
      exact h'

@[simp] theorem ok_bind {α β : Type} (a : α) (f : α → Res β) : (.ok a : Res α) >>= f = f a := rfl

variable {k : Nat} {t t' u : Tree} {ts ts' us : List Token} {argv : List (List UInt8)} {w : List UInt8}

theorem next_iff {tok : Token} : next tok ts = true ↔ ts = tok :: ts.tail := by
  rw [next, decide_eq_true_eq]
  constructor
  · intro h
    obtain ⟨us, rfl⟩ := List.head?_eq_some_iff.mp h
    rfl
  · intro h
    rw [h]
    rfl

theorem word?_eq {tok : Token} (h : word? tok = some w) : tok = .word w := by
  cases tok <;> cases h
  rfl

theorem head_word (h : ts.head?.bind word? = some w) : ts = .word w :: ts.tail := by
  cases ts with
  | nil => cases h
  | cons tok ts => rw [word?_eq h]; rfl

theorem tokens_of_redirOp {tok : Token} {r : List UInt8 → Redir} (h : redirOp tok = some r) (w : List UInt8) :
    (r w).tokens = [tok, .word w] := by
  cases tok <;> cases h <;> rfl

theorem redirTokens_cons (r : Redir) (rs : List Redir) : redirTokens (r :: rs) = r.tokens ++ redirTokens rs := List.flatMap_cons

theorem argTokens_cons (rs : List Redir) (args : List (List UInt8 × List Redir)) :
    argTokens ((w, rs) :: args) = .word w :: (redirTokens rs ++ argTokens args) := List.flatMap_cons

theorem parseredirs_sound (h : parseredirs k t ts = .ok (t', ts')) :
    ∃ rs, ts = redirTokens rs ++ ts' ∧ t' = rs.foldl Redir.apply t := by
  induction k generalizing t ts with
  | zero => cases h
  | succ k ih =>
    cases ts with
    | nil =>
      cases h
      exact ⟨[], rfl, rfl⟩
    | cons tok ts =>
      rw [parseredirs] at h
      split at h
      · cases h
        exact ⟨[], rfl, rfl⟩
      · rename_i r hr
        split at h
        · rename_i w hw
          obtain ⟨rs, hts, rfl⟩ := ih h
          refine ⟨r w :: rs, ?_, rfl⟩
          rw [head_word hw, hts, redirTokens_cons, tokens_of_redirOp hr]
          rfl
        · cases h

theorem setArgv_apply (r : Redir) : setArgv argv (r.apply t) = r.apply (setArgv argv t) := by
  cases r <;> rfl

theorem setArgv_foldl (rs : List Redir) : setArgv argv (rs.foldl Redir.apply t) = rs.foldl Redir.apply (setArgv argv t) := by
  induction rs generalizing t with
  | nil => rfl
  | cons r rs ih => rw [List.foldl_cons, ih, setArgv_apply, List.foldl_cons]

theorem endArgs_eq_ok (h : endArgs t argv ts = .ok (t', ts')) : t' = setArgv argv t ∧ ts' = ts ∧ argv.length < MAXARGS := by
  unfold endArgs at h
  split at h <;> cases h
  exact ⟨rfl, rfl, ‹_›⟩

theorem setArg_eq_ok {argv' : List (List UInt8)} (h : setArg argv w = .ok argv') : argv' = argv ++ [w] := by
  unfold setArg at h
  split at h <;> cases h
  rfl

theorem parseargs_sound (h : parseargs k t argv ts = .ok (t', ts')) :
    ∃ args, ts = argTokens args ++ ts' ∧ t' = setArgv (argv ++ args.map Prod.fst) ((args.flatMap Prod.snd).foldl Redir.apply t) ∧
      (argv ++ args.map Prod.fst).length < MAXARGS := by
  induction k generalizing t argv ts with
  | zero => cases h
  | succ k ih =>
    have hend : endArgs t argv ts = .ok (t', ts') → ∃ args, ts = argTokens args ++ ts' ∧
        t' = setArgv (argv ++ args.map Prod.fst) ((args.flatMap Prod.snd).foldl Redir.apply t) ∧
          (argv ++ args.map Prod.fst).length < MAXARGS := by
      intro h
      obtain ⟨rfl, rfl, hlt⟩ := endArgs_eq_ok h
      refine ⟨[], rfl, ?_, ?_⟩
      · rw [List.map_nil, List.append_nil]
        rfl
      · rwa [List.map_nil, List.append_nil]
    cases ts with
    | nil => exact hend h
    | cons tok ts =>
      rw [parseargs] at h
      split at h
      · exact hend h
      · split at h
        · rename_i w hw
          obtain ⟨argv', hset, h⟩ := bind_eq_ok.mp h
          obtain rfl := setArg_eq_ok hset
          split at h
          · cases h
          · obtain ⟨⟨ret, us⟩, hredirs, h⟩ := bind_eq_ok.mp h
            obtain ⟨rs, rfl, rfl⟩ := parseredirs_sound hredirs
            obtain ⟨args, rfl, rfl, hlt⟩ := ih h
            refine ⟨(w, rs) :: args, ?_, ?_, ?_⟩
            · rw [word?_eq hw, argTokens_cons, List.cons_append, List.append_assoc]
            · rw [List.map_cons, List.append_cons argv w (args.map Prod.fst), List.flatMap_cons, List.foldl_append]
            · rw [List.map_cons, List.append_cons argv w (args.map Prod.fst)]
              exact hlt
        · cases h

theorem parseback_sound (h : parseback k t ts = .ok (t', ts')) :
    ∃ n, ts = List.replicate n .amp ++ ts' ∧ t' = Tree.back^[n] t := by
  induction k generalizing t ts with
  | zero => cases h
  | succ k ih =>
    rw [parseback] at h
    split at h
    · rename_i hamp
      obtain ⟨n, hts, rfl⟩ := ih h
      refine ⟨n + 1, ?_, rfl⟩
      rw [next_iff.mp hamp, hts]
      rfl
    · cases h
      exact ⟨0, rfl, rfl⟩

theorem parse_sound (k : Nat) :
    (∀ {ts t ts'}, parseline k ts = .ok (t, ts') → ∃ us, ts = us ++ ts' ∧ Derives .line us t) ∧
    (∀ {ts t ts'}, parsepipe k ts = .ok (t, ts') → ∃ us, ts = us ++ ts' ∧ Derives .pipe us t) ∧
    (∀ {ts t ts'}, parseexec k ts = .ok (t, ts') → ∃ us, ts = us ++ ts' ∧ Derives .exec us t) ∧
    ∀ {ts t ts'}, parseblock k ts = .ok (t, ts') → ∃ us, ts = us ++ ts' ∧ Derives .exec us t := by
  induction k with
  | zero => exact ⟨(fun h => nomatch h), (fun h => nomatch h), (fun h => nomatch h), fun h => nomatch h⟩
  | succ k ih =>
    obtain ⟨ihline, ihpipe, ihexec, ihblock⟩ := ih
    refine ⟨fun {ts t ts'} h => ?_, fun {ts t ts'} h => ?_, fun {ts t ts'} h => ?_, fun {ts t ts'} h => ?_⟩
    · rw [parseline] at h
      obtain ⟨⟨t₁, ts₁⟩, hpipe, h⟩ := bind_eq_ok.mp h
      obtain ⟨⟨t₂, ts₂⟩, hback, h⟩ := bind_eq_ok.mp h
      obtain ⟨us, rfl, hus⟩ := ihpipe hpipe
      obtain ⟨n, rfl, rfl⟩ := parseback_sound hback
      dsimp only at h
      split at h
      · rename_i hsemi
        obtain ⟨⟨u, ts₃⟩, hline, h⟩ := bind_eq_ok.mp h
        cases h
        obtain ⟨vs, hvs, hline⟩ := ihline hline
        refine ⟨_, ?_, .lines n hus hline⟩
        rw [next_iff.mp hsemi, hvs]
        simp only [List.append_assoc, List.cons_append]
      · cases h
        exact ⟨_, (List.append_assoc ..).symm, .line n hus⟩
    · rw [parsepipe] at h
      obtain ⟨⟨t₁, ts₁⟩, hexec, h'⟩ := bind_eq_ok.mp h
      obtain ⟨us, rfl, hus⟩ := ihexec hexec
      dsimp only at h'
      split at h'
      · rename_i hbar
        obtain ⟨⟨u, ts₂⟩, hpipe, hok⟩ := bind_eq_ok.mp h'
        cases hok
        obtain ⟨vs, hvs, hpipe⟩ := ihpipe hpipe
        refine ⟨_, ?_, .pipes hus hpipe⟩
        rw [next_iff.mp hbar, hvs, List.append_assoc]
        rfl
      · cases h'
        exact ⟨us, rfl, .pipe hus⟩
    · rw [parseexec] at h
      split at h
      · exact ihblock h
      · obtain ⟨⟨ret, ts₁⟩, hredirs, h⟩ := bind_eq_ok.mp h
        obtain ⟨rs, rfl, rfl⟩ := parseredirs_sound hredirs
        obtain ⟨args, rfl, rfl, hlt⟩ := parseargs_sound h
        rw [List.nil_append, List.length_map] at hlt
        refine ⟨_, (List.append_assoc ..).symm, ?_⟩
        rw [← List.foldl_append, setArgv_foldl]
        exact .exec rs args hlt
    · rw [parseblock] at h
      split at h
      · rename_i hl
        obtain ⟨⟨t₁, ts₁⟩, hline, h⟩ := bind_eq_ok.mp h
        obtain ⟨us, hus, hline⟩ := ihline hline
        dsimp only at h
        split at h
        · rename_i hr
          obtain ⟨rs, hrs, rfl⟩ := parseredirs_sound h
          refine ⟨_, ?_, .block hline rs⟩
          rw [next_iff.mp hl, hus, next_iff.mp hr, hrs]
          simp only [List.append_assoc, List.cons_append]
        · cases h
      · cases h

/-! ### It accepts every derivation -/

/-- What may come behind a part of a line. -/
def follows : Nonterminal → Token → Bool
  | .exec, tok => endsArgs tok
  | .pipe, tok => endsArgs tok && tok ≠ .bar
  | .line, tok => tok = .rparen

def Ends (n : Nonterminal) (ts : List Token) : Prop := ∀ tok ∈ ts.head?, follows n tok = true

variable {rest : List Token} {n : Nonterminal}

theorem ends_cons {tok : Token} (h : follows n tok = true) : Ends n (tok :: ts) := by
  intro tok' htok
  cases htok
  exact h

theorem ends_nil : Ends n [] := fun _ h => nomatch h

theorem Ends.pipe_of_line (h : Ends .line rest) : Ends .pipe rest := by
  intro tok htok
  obtain rfl := of_decide_eq_true (h tok htok)
  rfl

theorem Ends.exec_of_pipe (h : Ends .pipe rest) : Ends .exec rest := fun tok htok => (Bool.and_eq_true_iff.mp (h tok htok)).1

theorem Ends.not_next {tok : Token} (h : Ends n rest) (htok : follows n tok = false) : next tok rest = false := by
  refine Bool.eq_false_iff.mpr fun hnext => ?_
  have := h tok (of_decide_eq_true hnext)
  rw [htok] at this
  cases this

theorem Ends.noRedir (h : Ends .exec rest) : ∀ tok ∈ rest.head?, redirOp tok = none := by
  intro tok htok
  have := h tok htok
  cases tok <;> first | rfl | cases this

theorem parseredirs_complete (hrest : ∀ tok ∈ rest.head?, redirOp tok = none) (rs : List Redir) :
    ∀ {k : Nat} {t : Tree}, rs.length < k → parseredirs k t (redirTokens rs ++ rest) = .ok (rs.foldl Redir.apply t, rest) := by
  induction rs with
  | nil =>
    intro k t hk
    obtain ⟨k, rfl⟩ : ∃ j, k = j + 1 := ⟨k - 1, by simp at hk; omega⟩
    cases rest with
    | nil => rfl
    | cons tok rest =>
      show parseredirs (k + 1) t (tok :: rest) = _
      rw [parseredirs, hrest tok rfl]
      rfl
  | cons r rs ih =>
    intro k t hk
    rw [List.length_cons] at hk
    obtain ⟨k, rfl⟩ : ∃ j, k = j + 1 := ⟨k - 1, by omega⟩
    rw [redirTokens_cons, List.append_assoc, List.foldl_cons, ← ih (t := r.apply t) (k := k) (by omega)]
    cases r <;> rfl

theorem parseargs_complete (hrest : Ends .exec rest) (args : List (List UInt8 × List Redir)) :
    ∀ {t : Tree} (argv : List (List UInt8)), (argv ++ args.map Prod.fst).length < MAXARGS →
      ∃ m, ∀ k, m ≤ k → parseargs k t argv (argTokens args ++ rest)
        = .ok (setArgv (argv ++ args.map Prod.fst) ((args.flatMap Prod.snd).foldl Redir.apply t), rest) := by
  induction args with
  | nil =>
    intro t argv hlen
    rw [List.map_nil, List.append_nil] at hlen ⊢
    refine ⟨1, fun k hk => ?_⟩
    obtain ⟨k, rfl⟩ : ∃ j, k = j + 1 := ⟨k - 1, by omega⟩
    have hend : endArgs t argv rest = .ok (setArgv argv t, rest) := if_pos hlen
    cases rest with
    | nil => exact hend
    | cons tok rest =>
      show parseargs (k + 1) t argv (tok :: rest) = _
      have htok : endsArgs tok = true := hrest tok rfl
      rw [parseargs, if_pos htok]
      exact hend
  | cons x args ih =>
    obtain ⟨w, rs⟩ := x
    intro t argv hlen
    rw [List.map_cons, List.append_cons argv w (args.map Prod.fst)] at hlen ⊢
    obtain ⟨m, hm⟩ := ih (t := rs.foldl Redir.apply t) _ hlen
    have hshort : (argv ++ [w]).length < MAXARGS := by
      rw [List.length_append] at hlen
      omega
    have hnoRedir : ∀ tok ∈ (argTokens args ++ rest).head?, redirOp tok = none := by
      cases args with
      | nil => exact hrest.noRedir
      | cons x args =>
        intro tok htok
        cases htok
        rfl
    refine ⟨max m rs.length + 2, fun k hk => ?_⟩
    obtain ⟨k, rfl⟩ : ∃ j, k = j + 1 := ⟨k - 1, by omega⟩
    rw [argTokens_cons, List.cons_append, List.append_assoc, parseargs, if_neg (fun h => nomatch h)]
    have hset : setArg argv w = .ok (argv ++ [w]) := by
      refine if_pos ?_
      rw [List.length_append] at hshort
      omega
    have hredirs : parseredirs k t (redirTokens rs ++ (argTokens args ++ rest)) = .ok (rs.foldl Redir.apply t, argTokens args ++ rest) :=
      parseredirs_complete hnoRedir rs (by omega)
    simp only [word?, hset, ok_bind, if_neg (Nat.not_le.mpr hshort), hredirs]
    rw [hm k (by omega), List.flatMap_cons, List.foldl_append]

theorem parseback_complete (hrest : next .amp rest = false) (n : Nat) :
    ∀ {k : Nat} {t : Tree}, n < k → parseback k t (List.replicate n .amp ++ rest) = .ok (Tree.back^[n] t, rest) := by
  induction n with
  | zero =>
    intro k t hk
    obtain ⟨k, rfl⟩ : ∃ j, k = j + 1 := ⟨k - 1, by omega⟩
    rw [List.replicate_zero, List.nil_append, parseback, hrest]
    rfl
  | succ n ih =>
    intro k t hk
    obtain ⟨k, rfl⟩ : ∃ j, k = j + 1 := ⟨k - 1, by omega⟩
    rw [Function.iterate_succ_apply, ← ih (t := t.back) (k := k) (by omega), List.replicate_succ]
    rfl

def parse : Nonterminal → Nat → List Token → Res (Tree × List Token)
  | .line => parseline
  | .pipe => parsepipe
  | .exec => parseexec

theorem parse_complete (h : Derives n us t) : ∀ rest, Ends n rest → ∃ m, ∀ k, m ≤ k → parse n k (us ++ rest) = .ok (t, rest) := by
  have hsucc : ∀ {k m : Nat}, m + 1 ≤ k → ∃ j, m ≤ j ∧ k = j + 1 := fun {k m} h => ⟨k - 1, by omega, by omega⟩
  induction h with
  | @line ts t n h ih =>
    intro rest hrest
    have hpipe : Ends .pipe (List.replicate n .amp ++ rest) := by
      cases n with
      | zero => exact hrest.pipe_of_line
      | succ n => exact ends_cons rfl
    obtain ⟨m, hm⟩ := ih _ hpipe
    refine ⟨max m (n + 1) + 1, fun k hk => ?_⟩
    obtain ⟨k, hk', rfl⟩ := hsucc hk
    have hback : parseback k t (List.replicate n .amp ++ rest) = .ok (Tree.back^[n] t, rest) :=
      parseback_complete (hrest.not_next rfl) n (by omega)
    have hm := hm k (by omega)
    simp only [parse] at hm ⊢
    rw [parseline, List.append_assoc, hm]
    simp only [ok_bind, hback, hrest.not_next (show follows .line .semi = false from rfl)]
    rfl
  | @lines ts us t u n h h' ih ih' =>
    intro rest hrest
    have hpipe : Ends .pipe (List.replicate n .amp ++ .semi :: (us ++ rest)) := by
      cases n with
      | zero => exact ends_cons rfl
      | succ n => exact ends_cons rfl
    obtain ⟨m, hm⟩ := ih _ hpipe
    obtain ⟨m', hm'⟩ := ih' _ hrest
    refine ⟨max m (max m' (n + 1)) + 1, fun k hk => ?_⟩
    obtain ⟨k, hk', rfl⟩ := hsucc hk
    have hback : parseback k t (List.replicate n .amp ++ .semi :: (us ++ rest)) = .ok (Tree.back^[n] t, .semi :: (us ++ rest)) :=
      parseback_complete rfl n (by omega)
    have hm := hm k (by omega)
    have hm' := hm' k (by omega)
    simp only [parse] at hm hm' ⊢
    rw [parseline, List.append_assoc, List.append_assoc, List.cons_append, hm]
    simp only [ok_bind, hback, show next .semi (.semi :: (us ++ rest)) = true from rfl, if_true, List.tail_cons, hm']
  | @pipe ts t h ih =>
    intro rest hrest
    obtain ⟨m, hm⟩ := ih _ hrest.exec_of_pipe
    refine ⟨m + 1, fun k hk => ?_⟩
    obtain ⟨k, hk', rfl⟩ := hsucc hk
    have hm := hm k hk'
    simp only [parse] at hm ⊢
    rw [parsepipe, hm]
    simp only [ok_bind, hrest.not_next (show follows .pipe .bar = false from rfl)]
    rfl
  | @pipes ts us t u h h' ih ih' =>
    intro rest hrest
    obtain ⟨m, hm⟩ := ih (.bar :: (us ++ rest)) (ends_cons rfl)
    obtain ⟨m', hm'⟩ := ih' _ hrest
    refine ⟨max m m' + 1, fun k hk => ?_⟩
    obtain ⟨k, hk', rfl⟩ := hsucc hk
    have hm := hm k (by omega)
    have hm' := hm' k (by omega)
    simp only [parse] at hm hm' ⊢
    rw [parsepipe, List.append_assoc, List.cons_append, hm]
    simp only [ok_bind, show next .bar (.bar :: (us ++ rest)) = true from rfl, if_true, List.tail_cons, hm']
  | @block ts t h rs ih =>
    intro rest hrest
    obtain ⟨m, hm⟩ := ih (.rparen :: (redirTokens rs ++ rest)) (ends_cons rfl)
    refine ⟨max m (rs.length + 1) + 1 + 1, fun k hk => ?_⟩
    obtain ⟨i, hi, rfl⟩ := hsucc hk
    obtain ⟨k, hk', rfl⟩ := hsucc hi
    have hm := hm k (by omega)
    have hredirs : parseredirs k t (redirTokens rs ++ rest) = .ok (rs.foldl Redir.apply t, rest) :=
      parseredirs_complete hrest.noRedir rs (by omega)
    simp only [parse] at hm ⊢
    rw [List.cons_append, List.append_assoc, List.cons_append, parseexec,
      if_pos (show next .lparen (.lparen :: _) = true from rfl), parseblock, if_pos (show next .lparen (.lparen :: _) = true from rfl),
      List.tail_cons, hm]
    simp only [ok_bind, show next .rparen (.rparen :: (redirTokens rs ++ rest)) = true from rfl, if_true, List.tail_cons, hredirs]
  | exec rs args hargs =>
    intro rest hrest
    have hnoRedir : ∀ tok ∈ (argTokens args ++ rest).head?, redirOp tok = none := by
      cases args with
      | nil => exact hrest.noRedir
      | cons x args =>
        intro tok htok
        cases htok
        rfl
    have hnext : next .lparen (redirTokens rs ++ (argTokens args ++ rest)) = false := by
      cases rs with
      | nil =>
        cases args with
        | nil => exact hrest.not_next rfl
        | cons x args => rfl
      | cons r rs => cases r <;> rfl
    obtain ⟨m, hm⟩ := parseargs_complete hrest args (t := rs.foldl Redir.apply (.exec [])) [] (by
      rw [List.nil_append, List.length_map]
      exact hargs)
    refine ⟨max m (rs.length + 1) + 1, fun k hk => ?_⟩
    obtain ⟨k, hk', rfl⟩ := hsucc hk
    have hredirs : parseredirs k (.exec []) (redirTokens rs ++ (argTokens args ++ rest)) =
        .ok (rs.foldl Redir.apply (.exec []), argTokens args ++ rest) := parseredirs_complete hnoRedir rs (by omega)
    simp only [parse]
    rw [parseexec, List.append_assoc, hnext]
    simp only [Bool.false_eq_true, if_false, hredirs, ok_bind]
    rw [hm k (by omega), ← List.foldl_append, setArgv_foldl]
    rfl

theorem derives_unique (h : Derives n ts t) (h' : Derives n ts u) : t = u := by
  obtain ⟨m, hm⟩ := parse_complete h [] ends_nil
  obtain ⟨m', hm'⟩ := parse_complete h' [] ends_nil
  have hm := hm (max m m') (Nat.le_max_left ..)
  rw [hm' (max m m') (Nat.le_max_right ..)] at hm
  cases hm
  rfl

/-! ### It comes to an end -/

def Fine {α : Type} (r : Res α) : Prop := ∀ e, r = .error e → ∃ msg, e = .panic msg

theorem fine_ok {α : Type} (a : α) : Fine (.ok a : Res α) := fun _ h => nomatch h

theorem fine_panic {α : Type} (msg : String) : Fine (.error (.panic msg) : Res α) := by
  intro e h
  cases h
  exact ⟨msg, rfl⟩

theorem Fine.bind {α β : Type} {x : Res α} {f : α → Res β} (hx : Fine x) (hf : ∀ a, x = .ok a → Fine (f a)) : Fine (x >>= f) := by
  cases x with
  | error e =>
    intro e' h
    cases h
    exact hx e rfl
  | ok a => exact hf a rfl

theorem parseredirs_fine (hk : ts.length < k) : Fine (parseredirs k t ts) := by
  induction k generalizing t ts with
  | zero => cases hk
  | succ k ih =>
    cases ts with
    | nil => exact fine_ok _
    | cons tok ts =>
      rw [parseredirs]
      split
      · exact fine_ok _
      · split
        · refine ih ?_
          rw [List.length_tail]
          rw [List.length_cons] at hk
          omega
        · exact fine_panic _

theorem parseargs_fine (hk : ts.length < k) (hargv : argv.length < MAXARGS) : Fine (parseargs k t argv ts) := by
  induction k generalizing t argv ts with
  | zero => cases hk
  | succ k ih =>
    have hend : Fine (endArgs t argv ts) := by
      rw [endArgs, if_pos hargv]
      exact fine_ok _
    cases ts with
    | nil => exact hend
    | cons tok ts =>
      rw [List.length_cons] at hk
      rw [parseargs]
      split
      · exact hend
      · split
        · rename_i w hw
          rw [setArg, if_pos hargv, ok_bind]
          split
          · exact fine_panic _
          · rename_i hshort
            refine (parseredirs_fine (by omega)).bind fun ⟨ret, us⟩ hredirs => ih ?_ (Nat.lt_of_not_le hshort)
            obtain ⟨rs, rfl, -⟩ := parseredirs_sound hredirs
            rw [List.length_append] at hk
            omega
        · exact fine_panic _

theorem parseback_fine (hk : ts.length < k) : Fine (parseback k t ts) := by
  induction k generalizing t ts with
  | zero => cases hk
  | succ k ih =>
    rw [parseback]
    split
    · rename_i hamp
      refine ih ?_
      rw [next_iff.mp hamp, List.length_cons] at hk
      omega
    · exact fine_ok _

theorem parse_fine (k : Nat) :
    (∀ ts, 4 * ts.length + 4 ≤ k → Fine (parseline k ts)) ∧ (∀ ts, 4 * ts.length + 3 ≤ k → Fine (parsepipe k ts)) ∧
    (∀ ts, 4 * ts.length + 2 ≤ k → Fine (parseexec k ts)) ∧
    ∀ ts, next .lparen ts = true → 4 * ts.length + 1 ≤ k → Fine (parseblock k ts) := by
  induction k with
  | zero => exact ⟨fun _ h => by omega, fun _ h => by omega, fun _ h => by omega, fun _ _ h => by omega⟩
  | succ k ih =>
    obtain ⟨ihline, ihpipe, ihexec, ihblock⟩ := ih
    obtain ⟨hline, hpipe, hexec, -⟩ := parse_sound k
    refine ⟨fun ts hk => ?_, fun ts hk => ?_, fun ts hk => ?_, fun ts hl hk => ?_⟩
    · rw [parseline]
      refine (ihpipe ts (by omega)).bind fun ⟨t₁, ts₁⟩ h₁ => ?_
      obtain ⟨us, rfl, -⟩ := hpipe h₁
      rw [List.length_append] at hk
      refine (parseback_fine (by omega)).bind fun ⟨t₂, ts₂⟩ h₂ => ?_
      obtain ⟨n, rfl, -⟩ := parseback_sound h₂
      rw [List.length_append] at hk
      dsimp only
      split
      · rename_i hsemi
        refine (ihline _ ?_).bind fun _ _ => fine_ok _
        have := congrArg List.length (next_iff.mp hsemi)
        rw [List.length_cons] at this
        omega
      · exact fine_ok _
    · rw [parsepipe]
      refine (ihexec ts (by omega)).bind fun ⟨t₁, ts₁⟩ h₁ => ?_
      obtain ⟨us, rfl, -⟩ := hexec h₁
      rw [List.length_append] at hk
      dsimp only
      split
      · rename_i hbar
        refine (ihpipe _ ?_).bind fun _ _ => fine_ok _
        have := congrArg List.length (next_iff.mp hbar)
        rw [List.length_cons] at this
        omega
      · exact fine_ok _
    · rw [parseexec]
      split
      · rename_i hl
        exact ihblock ts hl (by omega)
      · refine (parseredirs_fine (by omega)).bind fun ⟨ret, ts₁⟩ h₁ => ?_
        obtain ⟨rs, rfl, -⟩ := parseredirs_sound h₁
        rw [List.length_append] at hk
        exact parseargs_fine (by omega) (by decide)
    · rw [parseblock, if_pos hl]
      have hlen := congrArg List.length (next_iff.mp hl)
      rw [List.length_cons] at hlen
      refine (ihline _ (by omega)).bind fun ⟨t₁, ts₁⟩ h₁ => ?_
      obtain ⟨us, hus, -⟩ := hline h₁
      have hlen' := congrArg List.length hus
      rw [List.length_append] at hlen'
      dsimp only
      split
      · refine parseredirs_fine ?_
        rw [List.length_tail]
        omega
      · exact fine_panic _

/-! ### More rounds -/

/-- With more rounds the result is the same, if there is one. -/
def Keeps {α : Type} (x y : Res α) : Prop := x = y ∨ x = .error .rounds

theorem Keeps.refl {α : Type} (x : Res α) : Keeps x x := .inl rfl

theorem Keeps.bind {α β : Type} {x y : Res α} {f g : α → Res β} (h : Keeps x y) (hf : ∀ a, Keeps (f a) (g a)) :
    Keeps (x >>= f) (y >>= g) := by
  rcases h with rfl | rfl
  · cases x with
    | error e => exact .inl rfl
    | ok a => exact hf a
  · exact .inr rfl

theorem Keeps.ite {α : Type} {x y x' y' : Res α} {c : Prop} [Decidable c] (h : Keeps x y) (h' : Keeps x' y') :
    Keeps (if c then x else x') (if c then y else y') := by
  split
  · exact h
  · exact h'

theorem parseredirs_keeps (k : Nat) : ∀ t ts, Keeps (parseredirs k t ts) (parseredirs (k + 1) t ts) := by
  induction k with
  | zero => exact fun _ _ => .inr rfl
  | succ k ih =>
    intro t ts
    cases ts with
    | nil => exact .refl _
    | cons tok ts =>
      rw [parseredirs, parseredirs]
      split
      · exact .refl _
      · split
        · exact ih _ _
        · exact .refl _

theorem parseargs_keeps (k : Nat) : ∀ t argv ts, Keeps (parseargs k t argv ts) (parseargs (k + 1) t argv ts) := by
  induction k with
  | zero => exact fun _ _ _ => .inr rfl
  | succ k ih =>
    intro t argv ts
    cases ts with
    | nil => exact .refl _
    | cons tok ts =>
      rw [parseargs, parseargs]
      refine .ite (.refl _) ?_
      split
      · exact (Keeps.refl _).bind fun argv => .ite (.refl _) ((parseredirs_keeps k _ _).bind fun ⟨_, _⟩ => ih _ _ _)
      · exact .refl _

theorem parseback_keeps (k : Nat) : ∀ t ts, Keeps (parseback k t ts) (parseback (k + 1) t ts) := by
  induction k with
  | zero => exact fun _ _ => .inr rfl
  | succ k ih =>
    intro t ts
    rw [parseback, parseback]
    exact .ite (ih _ _) (.refl _)

theorem parse_keeps (k : Nat) :
    (∀ ts, Keeps (parseline k ts) (parseline (k + 1) ts)) ∧ (∀ ts, Keeps (parsepipe k ts) (parsepipe (k + 1) ts)) ∧
    (∀ ts, Keeps (parseexec k ts) (parseexec (k + 1) ts)) ∧ ∀ ts, Keeps (parseblock k ts) (parseblock (k + 1) ts) := by
  induction k with
  | zero => exact ⟨fun _ => .inr rfl, fun _ => .inr rfl, fun _ => .inr rfl, fun _ => .inr rfl⟩
  | succ k ih =>
    obtain ⟨ihline, ihpipe, ihexec, ihblock⟩ := ih
    refine ⟨fun ts => ?_, fun ts => ?_, fun ts => ?_, fun ts => ?_⟩
    · rw [parseline, parseline]
      refine (ihpipe ts).bind fun ⟨_, _⟩ => (parseback_keeps k _ _).bind fun ⟨_, _⟩ => .ite ?_ (.refl _)
      exact (ihline _).bind fun ⟨_, _⟩ => .refl _
    · rw [parsepipe, parsepipe]
      refine (ihexec ts).bind fun ⟨_, _⟩ => .ite ?_ (.refl _)
      exact (ihpipe _).bind fun ⟨_, _⟩ => .refl _
    · rw [parseexec, parseexec]
      exact .ite (ihblock ts) ((parseredirs_keeps k _ _).bind fun ⟨_, _⟩ => parseargs_keeps k _ _ _)
    · rw [parseblock, parseblock]
      exact .ite ((ihline _).bind fun ⟨_, _⟩ => .ite (parseredirs_keeps k _ _) (.refl _)) (.refl _)

theorem parseline_stable {j : Nat} (hk : parseline k ts ≠ .error .rounds) (hj : k ≤ j) : parseline j ts = parseline k ts := by
  induction hj with
  | refl => rfl
  | @step j _ ih =>
    rcases (parse_keeps j).1 ts with h | h
    · rw [← h, ih]
    · exact absurd (ih.symm.trans h) hk

/-- The parser on tokens decides the grammar. -/
theorem parsecmd_decides (hk : 4 * ts.length + 4 ≤ k) :
    (∃ t, parsecmd k ts = .ok t ∧ Derives .line ts t) ∨ (∃ msg, parsecmd k ts = .error (.panic msg)) ∧ ∀ t, ¬Derives .line ts t := by
  have hfine := (parse_fine k).1 ts hk
  have hstable : parseline k ts ≠ .error .rounds := by
    intro h
    obtain ⟨msg, hmsg⟩ := hfine _ h
    cases hmsg
  have hcomplete : ∀ t, Derives .line ts t → parseline k ts = .ok (t, []) := by
    intro t ht
    obtain ⟨m, hm⟩ := parse_complete ht [] ends_nil
    have hm := hm (max m k) (Nat.le_max_left ..)
    rw [List.append_nil] at hm
    exact (parseline_stable hstable (Nat.le_max_right m k)).symm.trans hm
  cases hline : parseline k ts with
  | error e =>
    obtain ⟨msg, rfl⟩ := hfine e hline
    refine .inr ⟨⟨msg, ?_⟩, fun t ht => nomatch hline.symm.trans (hcomplete t ht)⟩
    rw [parsecmd, hline]
    rfl
  | ok x =>
    obtain ⟨t, us⟩ := x
    cases us with
    | nil =>
      obtain ⟨vs, hvs, hderives⟩ := (parse_sound k).1 hline
      rw [List.append_nil] at hvs
      refine .inl ⟨t, ?_, hvs ▸ hderives⟩
      rw [parsecmd, hline]
      rfl
    | cons tok us =>
      refine .inr ⟨⟨"syntax", ?_⟩, fun u hu => ?_⟩
      · rw [parsecmd, hline]
        rfl
      · have := hline.symm.trans (hcomplete u hu)
        cases this

end Tokens
end Sh
end Xv6
