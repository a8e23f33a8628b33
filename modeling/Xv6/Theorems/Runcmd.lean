import Xv6.Runcmd
import Xv6.Theorems.Sh

/-! The redirections of a command: the shell carries them out from the last to the first. -/

namespace Xv6
namespace Sh

def Redir.fd : Redir → Nat
  | .lt _ => 0
  | .gt _ | .gtgt _ => 1

def Redir.file : Redir → List UInt8
  | .lt w | .gt w | .gtgt w => w

def Redir.mode : Redir → Nat
  | .lt _ => O_RDONLY
  | .gt _ | .gtgt _ => O_WRONLY ||| O_CREATE

theorem Redir.apply_eq (r : Redir) (t : Tree) : r.apply t = .redir t r.file r.mode r.fd := by cases r <;> rfl

theorem Redir.fd_lt (r : Redir) : r.fd < 2 := by
  cases r <;> simp [Redir.fd]

theorem Redir.mode_of_fd {r r' : Redir} (h : r.fd = r'.fd) : r.mode = r'.mode := by
  cases r <;> cases r' <;> first | rfl | cases h

/-- A simple command or a block with its redirections, in the order of the line. -/
inductive Written : List Token → List Redir → Tree → Prop
  | simple (rs : List Redir) (args : List (List UInt8 × List Redir)) (hargs : args.length < MAXARGS) :
      Written (redirTokens rs ++ argTokens args) (rs ++ args.flatMap Prod.snd) (.exec (args.map Prod.fst))
  | block {ts : List Token} {t : Tree} (h : Derives .line ts t) (rs : List Redir) :
      Written (.lparen :: (ts ++ .rparen :: redirTokens rs)) rs t

variable {line : Ptr} {k es : Nat} {buf : Buf} {cmd : Cmd} {t base : Tree} {rs : List Redir} {fds : Fds}

theorem Written.derives {ts : List Token} (h : Written ts rs base) : Derives .line ts (rs.foldl Redir.apply base) := by
  have hexec : Derives .exec ts (rs.foldl Redir.apply base) := by
    cases h with
    | simple rs args hargs => exact .exec rs args hargs
    | block h rs => exact .block h rs
  have hline := Derives.line 0 (.pipe hexec)
  rwa [List.replicate_zero, List.append_nil] at hline

def Redir.attach (fds : Fds) (r : Redir) : Fds := fun i => if i.val = r.fd then some (.file r.file r.mode) else fds i

theorem openFile_close (h : fds 0 ≠ none) (r : Redir) : openFile (close fds r.fd) r.file r.mode = some (r.attach fds) := by
  have hfind : (List.finRange NOFILE).find? (fun i => (close fds r.fd i).isNone) = some ⟨r.fd, r.fd_lt.trans (by decide)⟩ := by
    have hfin : List.finRange NOFILE = 0 :: 1 :: (List.finRange NOFILE).drop 2 := rfl
    rw [hfin]
    cases r with
    | lt w => rfl
    | gt w | gtgt w =>
      have h0 : (close fds 1 0).isNone = false := by
        rw [Option.isNone_eq_false_iff, Option.isSome_iff_ne_none]
        exact h
      show List.find? (fun i => (close fds 1 i).isNone) _ = _
      rw [List.find?_cons_of_neg (by rw [h0]; decide)]
      rfl
  rw [openFile, hfind, Option.map_some]
  refine congrArg some (funext fun i => ?_)
  by_cases hi : i.val = r.fd
  · rw [show i = ⟨r.fd, r.fd_lt.trans (by decide)⟩ from Fin.ext hi, Function.update_self, Redir.attach, if_pos rfl]
  · rw [Function.update_of_ne fun h => hi (congrArg Fin.val h), Redir.attach, if_neg hi, close, if_neg hi]

theorem runcmd_redirs {opens : List UInt8 → Nat → Bool} (hopens : ∀ r ∈ rs, opens r.file r.mode = true) (hfds : fds 0 ≠ none)
    (hcmd : cmd.read es buf = rs.foldl Redir.apply base) (opened : List (List UInt8 × Nat)) :
    ∃ cmd', cmd'.read es buf = base ∧ runcmd opens es buf rs.length cmd fds opened =
      some (cmd', rs.reverse.foldl Redir.attach fds, opened ++ rs.reverse.map fun r => (r.file, r.mode)) := by
  induction rs using List.reverseRecOn generalizing cmd fds opened with
  | nil =>
    refine ⟨cmd, hcmd, ?_⟩
    cases cmd <;> simp [runcmd]
  | append_singleton rs r ih =>
    rw [List.foldl_append, List.foldl_cons, List.foldl_nil, Redir.apply_eq] at hcmd
    cases cmd with
    | redir cmd file efile mode fd =>
      rw [Cmd.read] at hcmd
      injection hcmd with hcmd hfile hmode hfd
      subst hmode hfd
      have hattach : r.attach fds 0 ≠ none := by
        unfold Redir.attach
        split
        · exact Option.some_ne_none _
        · exact hfds
      obtain ⟨cmd', hbase, hrun⟩ := ih (fun x hx => hopens x (List.mem_append_left _ hx)) hattach hcmd (opened ++ [(r.file, r.mode)])
      refine ⟨cmd', hbase, ?_⟩
      rw [List.length_append, List.length_singleton, runcmd, hfile, if_pos (hopens r (by simp)), openFile_close hfds]
      simpa using hrun
    | _ => cases hcmd

/-- So the first redirection of a descriptor is the one that counts. -/
theorem attached (rs : List Redir) (fds : Fds) (i : Fin NOFILE) : rs.reverse.foldl Redir.attach fds i =
    ((rs.find? fun r => r.fd == i.val).map fun r => .file r.file r.mode).or (fds i) := by
  induction rs with
  | nil => rfl
  | cons r rs ih =>
    rw [List.reverse_cons, List.foldl_append, List.foldl_cons, List.foldl_nil, Redir.attach, List.find?_cons]
    by_cases hi : i.val = r.fd
    · simp [hi]
    · have hne : (r.fd == i.val) = false := beq_eq_false_iff_ne.mpr (Ne.symm hi)
      rw [if_neg hi, ih, hne]

theorem parsed_of_derives (h0 : 0 ∉ line) (hk : 4 * line.length + 4 ≤ k) (h : Derives .line (tokens line) t) :
    parsed k line = .ok t := by
  have hlen := length_tokens_le line
  rw [parsed_eq h0]
  rcases Tokens.parsecmd_decides (show 4 * (tokens line).length + 4 ≤ k by omega) with ⟨u, hu, hderives⟩ | ⟨-, hnot⟩
  · rw [hu, Tokens.derives_unique hderives h]
  · exact absurd h (hnot t)

/-- A command with redirections is run with all the files opened, and with the last redirection of each descriptor in force
    exactly if the first one of that descriptor names the same file. -/
theorem redirections_iff (h0 : 0 ∉ line) (hk : 4 * line.length + 4 ≤ k) (hrs : Written (tokens line) rs base)
    {opens : List UInt8 → Nat → Bool} (hopens : ∀ r ∈ rs, opens r.file r.mode = true) (hfds : fds 0 ≠ none) :
    ∃ cmd buf cmd' fds' opened, parsecmd k line = .ok (cmd, buf) ∧
      runcmd opens line.length buf rs.length cmd fds [] = some (cmd', fds', opened) ∧ cmd'.read line.length buf = base ∧
      (∀ r ∈ rs, (r.file, r.mode) ∈ opened) ∧
      ((∀ (i : Fin NOFILE) r, rs.reverse.find? (fun r => r.fd == i.val) = some r → fds' i = some (.file r.file r.mode)) ↔
        ∀ n r r', rs.find? (fun r => r.fd == n) = some r → rs.reverse.find? (fun r => r.fd == n) = some r' → r.file = r'.file) := by
  obtain ⟨cmd, buf, hcmd, hread⟩ := parsed_eq_ok (parsed_of_derives h0 hk hrs.derives)
  obtain ⟨cmd', hbase, hrun⟩ := runcmd_redirs hopens hfds hread []
  refine ⟨cmd, buf, cmd', _, _, hcmd, hrun, hbase, fun r hr => ?_, ?_⟩
  · rw [List.nil_append]
    exact List.mem_map.mpr ⟨r, List.mem_reverse.mpr hr, rfl⟩
  · constructor
    · intro hlast n r r' hr hr'
      have hn : r.fd = n := by simpa using List.find?_some hr
      have hlt : n < NOFILE := hn ▸ r.fd_lt.trans (by decide)
      have := hlast ⟨n, hlt⟩ r' hr'
      rw [attached, hr] at this
      exact (Target.file.inj (Option.some.inj this)).1
    · intro hsame i r' hr'
      have hfd' : r'.fd = i.val := by simpa using List.find?_some hr'
      have hsome : (rs.find? fun r => r.fd == i.val).isSome := by
        rw [List.find?_isSome]
        exact ⟨r', List.mem_reverse.mp (List.mem_of_find?_eq_some hr'), by simpa using hfd'⟩
      obtain ⟨r, hr⟩ := Option.isSome_iff_exists.mp hsome
      have hfd : r.fd = i.val := by simpa using List.find?_some hr
      rw [attached, hr, Option.map_some, hsame i r r' hr hr', Redir.mode_of_fd (hfd.trans hfd'.symm)]
      rfl

def console : Fds := fun i => if i.val < 3 then some (.inherited i) else none

theorem redirections_iff_two : ∃ cmd buf cmd' fds' opened, parsecmd 40 (chars "a <b >c") = .ok (cmd, buf) ∧
    runcmd (fun _ _ => true) 7 buf 2 cmd console [] = some (cmd', fds', opened) ∧
    fds' 0 = some (.file (chars "b") O_RDONLY) ∧ fds' 1 = some (.file (chars "c") (O_WRONLY ||| O_CREATE)) := by
  have htokens : tokens (chars "a <b >c") = redirTokens [] ++ argTokens [(chars "a", [.lt (chars "b"), .gt (chars "c")])] := by
    decide +kernel
  have hrs : Written (tokens (chars "a <b >c")) [.lt (chars "b"), .gt (chars "c")] (.exec [chars "a"]) := by
    rw [htokens]
    exact .simple [] [(chars "a", [.lt (chars "b"), .gt (chars "c")])] (by decide)
  obtain ⟨cmd, buf, cmd', fds', opened, hcmd, hrun, -, -, hiff⟩ := @redirections_iff (chars "a <b >c") 40 _ _ console
    (by decide) (by decide) hrs (fun _ _ => true) (fun _ _ => rfl) (by decide)
  have hlast := hiff.mpr fun n r r' hr hr' => by
    match n with
    | 0 => exact (Option.some.inj hr).symm.trans (Option.some.inj hr') ▸ rfl
    | 1 => exact (Option.some.inj hr).symm.trans (Option.some.inj hr') ▸ rfl
    | n + 2 => cases hr
  exact ⟨cmd, buf, cmd', fds', opened, hcmd, hrun, hlast 0 _ rfl, hlast 1 _ rfl⟩

/-- The output goes to `b`, and not to `c`. -/
theorem first_redirection_wins : ∃ cmd buf cmd' fds' opened, parsecmd 40 (chars "a >b >c") = .ok (cmd, buf) ∧
    runcmd (fun _ _ => true) 7 buf 2 cmd console [] = some (cmd', fds', opened) ∧
    fds' 1 = some (.file (chars "b") (O_WRONLY ||| O_CREATE)) := ⟨_, _, _, _, _, rfl, rfl, rfl⟩

end Sh
end Xv6
