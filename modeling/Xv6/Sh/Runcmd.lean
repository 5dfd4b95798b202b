import Xv6.Sh.Strings

namespace Xv6.Sh

open List

-- What a descriptor stands for: what it stood for when the shell began to run the command, a file, or
-- an end of a pipe.
inductive Handle where
  | before (fd : Fin NOFILE)
  | file (path : List Byte) (mode : Word)
  | pipe (depth : Nat) (write : Bool)
  deriving DecidableEq

abbrev Files := Fin NOFILE → Option Handle

structure Opening where
  path : List Byte
  mode : Word
  fd : Nat
  deriving DecidableEq

-- What the processes do that run a command. The left side of a list is waited for, and the sides of a
-- pipe and a command in the background are processes of their own.
inductive Run where
  | exit
  | exec (argv : List (List Byte)) (files : Files)
  | failed (opening : Opening)
  | opened (opening : Opening) (next : Run)
  | list (left right : Run)
  | noPipe
  | pipe (left right : Run)
  | back (child : Run)

def close (files : Files) (fd : Nat) : Files := fun i => if i.val = fd then none else files i

-- The lowest descriptor that is free.
def fdalloc (files : Files) : Option (Fin NOFILE) := (List.finRange NOFILE).find? fun fd => (files fd).isNone

def install (files : Files) (handle : Handle) : Option (Fin NOFILE × Files) :=
  (fdalloc files).map fun fd => (fd, Function.update files fd (some handle))

def dup (files : Files) (fd : Fin NOFILE) : Files :=
  match files fd with
  | none => files
  | some handle => ((install files handle).map Prod.snd).getD files

-- Whether a file can be opened may depend on what was opened before it.
def reopen (opens : List Opening → Opening → Bool) (past : List Opening) (files : Files) (opening : Opening) :
    Option Files :=
  if opens past opening then
    (install (close files opening.fd) (.file opening.path opening.mode)).map Prod.snd
  else none

-- The strings of the command are in the buffer, which has a line of this length.
def runcmd (opens : List Opening → Opening → Bool) (length : Nat) (buf : List Byte) :
    Cmd → Nat → List Opening → Files → Run
  | .exec argv, _, _, files =>
    if argv = [] then .exit else .exec (argv.map fun word => cstring buf (address length word.q)) files
  | .redir cmd file mode fd, depth, past, files =>
    let opening : Opening := ⟨cstring buf (address length file.q), mode, fd⟩
    match reopen opens past files opening with
    | none => .failed opening
    | some files => .opened opening (runcmd opens length buf cmd depth (past ++ [opening]) files)
  | .list left right, depth, past, files =>
    .list (runcmd opens length buf left depth past files) (runcmd opens length buf right depth past files)
  | .pipe left right, depth, past, files =>
    match install files (.pipe depth false) with
    | none => .noPipe
    | some (p0, files) =>
      match install files (.pipe depth true) with
      | none => .noPipe
      | some (p1, files) =>
        .pipe (runcmd opens length buf left (depth + 1) past (close (close (dup (close files 1) p1) p0) p1))
          (runcmd opens length buf right (depth + 1) past (close (close (dup (close files 0) p0) p0) p1))
  | .back cmd, depth, past, files => .back (runcmd opens length buf cmd depth past files)

def Redir.opening (redir : Redir) : Opening := ⟨redir.file.text, redir.arrow.mode, redir.arrow.fd⟩

-- The files are opened in this order before the command runs.
def openAll (opens : List Opening → Opening → Bool) (run : List Opening → Files → Run) :
    List Opening → List Opening → Files → Run
  | [], past, files => run past files
  | opening :: later, past, files =>
      match reopen opens past files opening with
      | none => .failed opening
      | some files => .opened opening (openAll opens run later (past ++ [opening]) files)

section Order

variable {opens : List Opening → Opening → Bool} {length : Nat} {buf : List Byte} {cmd : Cmd} {redirs : List Redir}

-- parseredirs puts every redirection around those before it, so the last one is opened first.
theorem runcmd_wrap (hstrings : ∀ redir ∈ redirs, cstring buf (address length redir.file.q) = redir.file.text)
    (past : List Opening) (files : Files) :
    runcmd opens length buf (wrap redirs cmd) 0 past files =
      openAll opens (runcmd opens length buf cmd 0) (redirs.map Redir.opening).reverse past files := by
  induction redirs using List.reverseRecOn generalizing past files with
  | nil => rfl
  | append_singleton redirs redir ih =>
    have hwrap : wrap (redirs ++ [redir]) cmd = .redir (wrap redirs cmd) redir.file redir.arrow.mode redir.arrow.fd :=
      wrap_append redirs [redir] cmd
    rw [hwrap, runcmd, map_append, reverse_append, map_singleton, reverse_singleton,
      singleton_append, openAll, hstrings redir (by simp)]
    simp only [ih fun redir hredir => hstrings redir (mem_append_left _ hredir)]
    rfl

theorem reopen_of_lt (past : List Opening) (files : Files) {opening : Opening} (h : opening.fd < NOFILE) :
    ∃ next, reopen (fun _ _ => true) past files opening = some next := by
  have hfree : (fdalloc (close files opening.fd)).isSome = true := by
    rw [fdalloc, List.find?_isSome]
    exact ⟨⟨opening.fd, h⟩, mem_finRange _, by simp [close]⟩
  obtain ⟨fd, hfd⟩ := Option.isSome_iff_exists.mp hfree
  rw [reopen, if_pos rfl, install, hfd]
  exact ⟨_, rfl⟩

variable {run : List Opening → Files → Run} {past : List Opening} {files : Files}

-- If every file can be opened, the order is seen in what happens.
theorem openAll_inj {one two past' : List Opening} {files' : Files} (hlength : one.length = two.length)
    (hone : ∀ opening ∈ one, opening.fd < NOFILE) (htwo : ∀ opening ∈ two, opening.fd < NOFILE)
    (h : openAll (fun _ _ => true) run one past files = openAll (fun _ _ => true) run two past' files') :
    one = two := by
  induction one generalizing two past past' files files' with
  | nil => exact (eq_nil_of_length_eq_zero hlength.symm).symm
  | cons first one ih =>
    cases two with
    | nil => cases hlength
    | cons second two =>
      obtain ⟨next, hnext⟩ := reopen_of_lt past files (hone first mem_cons_self)
      obtain ⟨next', hnext'⟩ := reopen_of_lt past' files' (htwo second mem_cons_self)
      rw [openAll, openAll, hnext, hnext'] at h
      obtain ⟨rfl, hrest⟩ := Run.opened.inj h
      rw [ih (Nat.succ.inj hlength) (fun o ho => hone o (mem_cons_of_mem _ ho))
        (fun o ho => htwo o (mem_cons_of_mem _ ho)) hrest]

-- What the descriptors stand for if all of these files are opened.
def redirected (files : Files) (openings : List Opening) : Files :=
  openings.foldl (fun files opening fd =>
    if fd.val = opening.fd then some (.file opening.path opening.mode) else files fd) files

-- The descriptor that is closed is the lowest free one if those below it are in use.
theorem reopen_eq (past : List Opening) {opening : Opening} (h : opening.fd < NOFILE)
    (hlow : ∀ fd : Fin NOFILE, fd.val < opening.fd → files fd ≠ none) :
    reopen (fun _ _ => true) past files opening = some (redirected files [opening]) := by
  have hfd : fdalloc (close files opening.fd) = some ⟨opening.fd, h⟩ := by
    rw [fdalloc, List.find?_eq_some_iff_getElem]
    refine ⟨by simp [close], opening.fd, by simpa using h, by simp, fun j hj => ?_⟩
    have hopen := hlow ⟨j, hj.trans h⟩ hj
    simpa [close, hj.ne, Option.isSome_iff_ne_none] using hopen
  rw [reopen, if_pos rfl, install, hfd]
  refine congrArg some (funext fun fd => ?_)
  by_cases heq : fd = ⟨opening.fd, h⟩
  · simp [redirected, heq]
  · simp [redirected, close, heq, Fin.ext_iff.not.mp heq]

theorem openAll_eq {openings : List Opening} (hfd : ∀ opening ∈ openings, opening.fd < NOFILE)
    (hlow : ∀ opening ∈ openings, ∀ fd : Fin NOFILE, fd.val < opening.fd → files fd ≠ none) :
    openAll (fun _ _ => true) run openings past files =
      openings.foldr .opened (run (past ++ openings) (redirected files openings)) := by
  induction openings generalizing past files with
  | nil => rw [openAll, append_nil]; rfl
  | cons opening later ih =>
    rw [openAll, reopen_eq past (hfd _ mem_cons_self) (hlow _ mem_cons_self)]
    dsimp only
    rw [ih (fun o ho => hfd o (mem_cons_of_mem _ ho)) fun o ho fd hlt => ?_, append_assoc]
    · rfl
    · have hopen := hlow o (mem_cons_of_mem _ ho) fd hlt
      simp only [redirected, foldl_cons, foldl_nil]
      split_ifs <;> simp [hopen]

theorem redirected_of_ne {openings : List Opening} {fd : Fin NOFILE} (h : ∀ opening ∈ openings, opening.fd ≠ fd.val) :
    redirected files openings fd = files fd := by
  induction openings generalizing files with
  | nil => rfl
  | cons opening later ih =>
    have hfirst := h opening mem_cons_self
    exact (ih fun o ho => h o (mem_cons_of_mem _ ho)).trans (if_neg hfirst.symm)

-- Opened in the order in which they are written, the last redirection of a descriptor is in effect.
theorem openAll_last {first later : List Opening} {opening : Opening}
    (hfd : ∀ o ∈ first ++ opening :: later, o.fd < NOFILE)
    (hlow : ∀ o ∈ first ++ opening :: later, ∀ fd : Fin NOFILE, fd.val < o.fd → files fd ≠ none)
    (hlast : ∀ o ∈ later, o.fd ≠ opening.fd) :
    ∃ last : Files, openAll (fun _ _ => true) run (first ++ opening :: later) past files =
        (first ++ opening :: later).foldr .opened (run (past ++ (first ++ opening :: later)) last) ∧
      ∀ fd : Fin NOFILE, fd.val = opening.fd → last fd = some (.file opening.path opening.mode) := by
  refine ⟨_, openAll_eq hfd hlow, fun fd heq => ?_⟩
  rw [redirected, foldl_append, foldl_cons]
  exact (redirected_of_ne (heq ▸ hlast)).trans (if_pos heq)

theorem Redir.fd_lt (redir : Redir) : redir.opening.fd < NOFILE := by
  obtain ⟨arrow, file⟩ := redir
  cases arrow <;> simp [opening, Arrow.fd, NOFILE]

theorem Derives.wrap_line {ts : List Token} (h : Derives .exec ts (wrap redirs cmd)) :
    Derives .line ts (wrap redirs cmd) := by
  have hline := Derives.line 0 (.pipe h)
  rwa [replicate_zero, append_nil] at hline

theorem runcmd_redirs_iff (line : List Byte) (turns : Nat) (redirs : List Redir) (cmd : Cmd)
    (hline : (0 : Byte) ∉ line) (hturns : 4 * (tokens line).length + 3 < turns) (hshort : cmd.Short)
    (hform : (∃ first args, tokens line = redirTokens first ++ argTokens args ∧
        redirs = first ++ args.flatMap Prod.snd ∧ cmd = .exec (args.map Prod.fst)) ∨
      ∃ block, Derives .line block cmd ∧
        tokens line = .symbol .lparen :: block ++ .symbol .rparen :: redirTokens redirs) :
    ∃ tree buf, parsecmd turns line = .ok (tree, buf) ∧
      (∀ opens past files, runcmd opens line.length buf tree 0 past files =
        openAll opens (runcmd opens line.length buf cmd 0) (redirs.map Redir.opening).reverse past files) ∧
      ((∀ opens past files, runcmd opens line.length buf tree 0 past files =
          openAll opens (runcmd opens line.length buf cmd 0) (redirs.map Redir.opening) past files) ↔
        (redirs.map Redir.opening).reverse = redirs.map Redir.opening) := by
  have hderives : Derives .line (tokens line) (wrap redirs cmd) := by
    apply Derives.wrap_line
    obtain ⟨first, args, htokens, rfl, rfl⟩ | ⟨block, hblock, htokens⟩ := hform
    · rw [htokens]
      exact .simple first args
    · rw [htokens]
      exact .block redirs hblock
  obtain ⟨buf, hparse⟩ := parsecmd_of_derives hturns hderives ((wrap_short redirs).mpr hshort)
  have hstrings : ∀ redir ∈ redirs, cstring buf (address line.length redir.file.q) = redir.file.text := by
    intro redir hredir
    apply parsecmd_text hline hparse
    rw [wrap_words]
    exact mem_append_right _ (mem_map_of_mem hredir)
  have hruns (opens : List Opening → Opening → Bool) (past : List Opening) (files : Files) :
      runcmd opens line.length buf (wrap redirs cmd) 0 past files = _ := runcmd_wrap hstrings past files
  refine ⟨_, buf, hparse, hruns, ?_⟩
  constructor
  · intro h
    have hfd : ∀ opening ∈ redirs.map Redir.opening, opening.fd < NOFILE := by
      intro opening hopening
      obtain ⟨redir, -, rfl⟩ := mem_map.mp hopening
      exact redir.fd_lt
    have hsame := (hruns (fun _ _ => true) [] fun _ => none).symm.trans (h _ _ _)
    exact openAll_inj (length_reverse ..) (fun o ho => hfd o (mem_reverse.mp ho)) hfd hsame
  · intro h opens past files
    rw [hruns, h]

def sameLine : List Byte := ['a', '>', 'x', '>', 'x'].map chr

-- The two redirections open the same file, in whichever order.
theorem runcmd_redirs_iff_same : ∃ tree buf, parsecmd 50 sameLine = .ok (tree, buf) ∧
    ∀ opens past files, runcmd opens sameLine.length buf tree 0 past files =
      openAll opens (runcmd opens sameLine.length buf (.exec [⟨sameLine, sameLine.drop 1⟩]) 0)
        (List.replicate 2 ⟨[chr 'x'], O_WRONLY ||| O_CREATE, 1⟩) past files := by
  let redirs : List Redir := [⟨.output, ⟨sameLine.drop 2, sameLine.drop 3⟩⟩, ⟨.output, ⟨sameLine.drop 4, []⟩⟩]
  obtain ⟨tree, buf, hparse, -, hiff⟩ := runcmd_redirs_iff sameLine 50 redirs
    (.exec [⟨sameLine, sameLine.drop 1⟩]) (by decide) (by decide +kernel) (by simp [Cmd.Short, MAXARGS])
    (.inl ⟨[], [(⟨sameLine, sameLine.drop 1⟩, redirs)], by decide +kernel, rfl, rfl⟩)
  exact ⟨tree, buf, hparse, hiff.mpr (by decide +kernel)⟩

def twoLine : List Byte := ['a', '>', 'x', '>', 'y'].map chr

def Run.openings : Run → List Opening
  | .opened opening next => opening :: next.openings
  | _ => []

def Run.stdout : Run → Option Handle
  | .opened _ next => next.stdout
  | .exec _ files => files ⟨1, by decide⟩
  | _ => none

-- The file y is opened before x, and the output goes to x.
theorem runcmd_reverses :
    (parsecmd 50 twoLine).toOption.map (fun pair =>
      let run := runcmd (fun _ _ => true) twoLine.length pair.2 pair.1 0 [] fun fd => some (.before fd)
      (run.openings, run.stdout)) =
    some ([⟨[chr 'y'], O_WRONLY ||| O_CREATE, 1⟩, ⟨[chr 'x'], O_WRONLY ||| O_CREATE, 1⟩],
      some (.file [chr 'x'] (O_WRONLY ||| O_CREATE))) := by
  decide +kernel

end Order

end Xv6.Sh
