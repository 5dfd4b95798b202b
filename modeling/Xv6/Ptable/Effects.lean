import Xv6.Ptable.Theorems

namespace Xv6

-- What a process may find about itself after it was woken up, killed or signalled, or after its
-- parent has exited.
def Proc.Rouses (proc after : Proc) : Prop :=
  after.pid = proc.pid ∧ after.chan = proc.chan ∧
    (after.state = proc.state ∨ (proc.state = .SLEEPING ∧ after.state = .RUNNABLE))

namespace Proc.Rouses

variable {proc middle after : Proc}

theorem refl (proc : Proc) : proc.Rouses proc := ⟨rfl, rfl, .inl rfl⟩

theorem of_eq (h : after = proc) : proc.Rouses after := h ▸ refl proc

theorem trans (hfirst : proc.Rouses middle) (hsecond : middle.Rouses after) : proc.Rouses after := by
  obtain ⟨hpid, hchan, hstate⟩ := hfirst
  obtain ⟨hpid', hchan', hstate'⟩ := hsecond
  refine ⟨hpid'.trans hpid, hchan'.trans hchan, ?_⟩
  rcases hstate with hsame | ⟨hsleeping, hrunnable⟩
  · rwa [hsame] at hstate'
  · rcases hstate' with hsame' | ⟨hsleeping', -⟩
    · exact .inr ⟨hsleeping, hsame'.trans hrunnable⟩
    · rw [hrunnable] at hsleeping'
      cases hsleeping'

theorem wakeup (proc : Proc) (chan : Chan) : proc.Rouses (proc.wakeup chan) := by
  unfold Proc.wakeup
  split
  · rename_i h
    exact ⟨rfl, rfl, .inr ⟨h.1, rfl⟩⟩
  · exact refl _

theorem kill (proc : Proc) : proc.Rouses proc.kill := by
  refine ⟨rfl, rfl, ?_⟩
  unfold Proc.kill
  by_cases h : proc.state = .SLEEPING
  · exact .inr ⟨h, if_pos h⟩
  · exact .inl (if_neg h)

theorem receive (proc : Proc) (sig : Nat) : proc.Rouses (proc.receive sig) := by
  unfold Proc.receive Proc.cont Proc.setPending
  split_ifs with hchld hcont huser hsleeping hsleeping hpending
  · exact refl _
  · exact ⟨rfl, rfl, .inr ⟨hsleeping, rfl⟩⟩
  · exact refl _
  · exact ⟨rfl, rfl, .inr ⟨hsleeping, rfl⟩⟩
  · exact refl _
  · exact refl _
  · exact refl _

end Proc.Rouses

namespace Ptable

variable {table next : Ptable} {me slot : Slot}

variable {change : Proc → Proc}

theorem update_rouses (table : Ptable) (target slot : Slot)
    (h : (table.proc target).Rouses (change (table.proc target))) :
    (table.proc slot).Rouses ((table.update target change).proc slot) := by
  by_cases heq : slot = target
  · subst heq
    rwa [proc_update_self]
  · rw [proc_update_of_ne table _ heq]
    exact .refl _

theorem kill_rouses (table : Ptable) (pid : Int) (slot : Slot) :
    (table.proc slot).Rouses ((table.kill pid).1.proc slot) := by
  unfold kill
  split
  · exact .refl _
  · exact table.update_rouses _ slot (.kill _)

theorem parent_update (table : Ptable) (target slot : Slot)
    (h : (change (table.proc target)).parent = (table.proc target).parent) :
    ((table.update target change).proc slot).parent = (table.proc slot).parent := by
  by_cases heq : slot = target
  · subst heq
    rwa [proc_update_self]
  · rw [proc_update_of_ne table _ heq]

theorem parent_wakeup1 (table : Ptable) (chan : Chan) (slot : Slot) :
    ((table.wakeup1 chan).proc slot).parent = (table.proc slot).parent := by
  simp only [wakeup1, Proc.wakeup]
  split <;> rfl

theorem parent_kill (table : Ptable) (pid : Int) (slot : Slot) :
    ((table.kill pid).1.proc slot).parent = (table.proc slot).parent := by
  unfold kill
  split
  · rfl
  · exact table.parent_update _ slot rfl

theorem parent_receive (proc : Proc) (sig : Nat) : (proc.receive sig).parent = proc.parent := by
  unfold Proc.receive Proc.cont Proc.setPending
  split_ifs <;> rfl

-- A sleeper that is left after wakeup1 sleeps on something else.
theorem chan_ne_of_sleeping {chan : Chan} (h : ((table.wakeup1 chan).proc slot).state = .SLEEPING) :
    (table.proc slot).chan ≠ chan := by
  intro hchan
  simp only [wakeup1, Proc.wakeup] at h
  split_ifs at h with hsleeping
  exact hsleeping ⟨h, hchan⟩

-- What exit does to the table before this process becomes a zombie: its children in this list are
-- passed on, and the first process is woken up if one of them is a zombie.
structure Passes (table next : Ptable) (me : Slot) (children : List Slot) : Prop where
  globals : next.globals = table.globals
  rouses (slot : Slot) : (table.proc slot).Rouses (next.proc slot)
  parent (slot : Slot) : (next.proc slot).parent =
    if slot ∈ children ∧ (table.proc slot).parent = some me then table.initproc else (table.proc slot).parent
  woken (slot : Slot) (hsleeping : (next.proc slot).state = .SLEEPING)
    (hchan : (table.proc slot).chan = .ofProc table.initproc) (child : Slot) (hchild : child ∈ children)
    (hparent : (table.proc child).parent = some me) : (table.proc child).state ≠ .ZOMBIE

theorem abandon_passes (table : Ptable) (me child : Slot) : Passes table (abandon me table child) me [child] := by
  unfold abandon
  split
  · rename_i hparent
    have hrouses : ∀ slot, (table.proc slot).Rouses
        ((table.update child fun proc => { proc with parent := table.initproc }).proc slot) :=
      fun slot => table.update_rouses child slot ⟨rfl, rfl, .inl rfl⟩
    have hparents : ∀ slot, ((table.update child fun proc => { proc with parent := table.initproc }).proc slot).parent =
        if slot ∈ [child] ∧ (table.proc slot).parent = some me then table.initproc else (table.proc slot).parent := by
      intro slot
      by_cases heq : slot = child
      · subst heq
        simp [hparent]
      · rw [proc_update_of_ne table _ heq]
        simp [heq]
    dsimp only
    split
    · refine ⟨rfl, fun slot => (hrouses slot).trans (.wakeup _ _), fun slot => ?_, ?_⟩
      · rw [parent_wakeup1, hparents]
      · intro slot hsleeping hchan
        refine absurd ?_ (chan_ne_of_sleeping hsleeping)
        rw [(hrouses slot).2.1]
        exact hchan
    · rename_i hzombie
      refine ⟨rfl, hrouses, hparents, ?_⟩
      rintro slot - - other hother -
      rw [List.mem_singleton.mp hother]
      rwa [proc_update_self] at hzombie
  · rename_i hparent
    refine ⟨rfl, fun slot => .refl _, fun slot => ?_, ?_⟩
    · rw [if_neg]
      rintro ⟨hslot, hslotparent⟩
      exact hparent (List.mem_singleton.mp hslot ▸ hslotparent)
    · rintro slot - - other hother hotherparent
      exact absurd (List.mem_singleton.mp hother ▸ hotherparent) hparent

theorem Passes.cons {middle : Ptable} {child : Slot} {children : List Slot} (hinit : table.initproc ≠ some me)
    (hfirst : Passes table middle me [child]) (hrest : Passes middle next me children) :
    Passes table next me (child :: children) := by
  have hglobals : middle.initproc = table.initproc := congrArg Prod.snd hfirst.globals
  -- An entry that has got its new parent is not a child of this process any more.
  have hmiddle : ∀ slot, (middle.proc slot).parent = some me ↔ slot ≠ child ∧ (table.proc slot).parent = some me := by
    intro slot
    rw [hfirst.parent slot]
    by_cases hslot : slot = child
    · subst hslot
      by_cases hparent : (table.proc slot).parent = some me <;> simp [hparent, hinit]
    · simp [hslot]
  refine ⟨hrest.globals.trans hfirst.globals, fun slot => (hfirst.rouses slot).trans (hrest.rouses slot), ?_, ?_⟩
  · intro slot
    rw [hrest.parent slot, hglobals]
    by_cases hslot : slot = child
    · subst hslot
      rw [if_neg (by rw [hmiddle]; simp), hfirst.parent slot]
      simp
    · simp only [hmiddle, ne_eq, hslot, not_false_eq_true, true_and, List.mem_cons, false_or]
      rw [hfirst.parent slot]
      simp [hslot]
  · intro slot hsleeping hchan other hother hparent
    have hmiddleSleeping : (middle.proc slot).state = .SLEEPING := by
      rcases (hrest.rouses slot).2.2 with hsame | ⟨hsleep, -⟩
      · exact hsame ▸ hsleeping
      · exact hsleep
    by_cases heq : other = child
    · exact hfirst.woken slot hmiddleSleeping hchan other (by simp [heq]) hparent
    · have hmem := (List.mem_cons.mp hother).resolve_left heq
      have hzombie := hrest.woken slot hsleeping (by rw [(hfirst.rouses slot).2.1, hglobals, hchan]) other hmem
        ((hmiddle other).mpr ⟨heq, hparent⟩)
      intro hstate
      rcases (hfirst.rouses other).2.2 with hsame | ⟨hsleep, -⟩
      · exact hzombie (hsame.trans hstate)
      · rw [hstate] at hsleep
        cases hsleep

theorem abandon_all_passes (table : Ptable) (me : Slot) (hinit : table.initproc ≠ some me) (children : List Slot) :
    Passes table (children.foldl (abandon me) table) me children := by
  induction children generalizing table with
  | nil => exact ⟨rfl, fun slot => .refl _, fun slot => by simp, by simp⟩
  | cons child rest ih =>
    refine .cons hinit (abandon_passes table me child) (ih _ ?_)
    rwa [initproc_abandon]

-- What exit does to the table.
structure Exits (table next : Ptable) (me : Slot) : Prop where
  init : table.initproc ≠ some me
  globals : next.globals = table.globals
  self : (next.proc me).state = .ZOMBIE
  pid (slot : Slot) : (next.proc slot).pid = (table.proc slot).pid
  parent (slot : Slot) : (next.proc slot).parent =
    if (table.proc slot).parent = some me then table.initproc else (table.proc slot).parent
  rouses (slot : Slot) (hslot : slot ≠ me) : (table.proc slot).Rouses (next.proc slot)
  woken (slot : Slot) (hslot : slot ≠ me) (hsleeping : (next.proc slot).state = .SLEEPING) :
    (table.proc slot).chan ≠ .ofProc (table.proc me).parent
  inherits (slot : Slot) (hslot : slot ≠ me) (hsleeping : (next.proc slot).state = .SLEEPING)
    (hchan : (table.proc slot).chan = .ofProc table.initproc) (child : Slot)
    (hparent : (table.proc child).parent = some me) : (table.proc child).state ≠ .ZOMBIE

theorem Passes.exits {last : Ptable} (hinit : table.initproc ≠ some me)
    (hpasses : Passes (table.wakeup1 (.ofProc (table.proc me).parent)) last me slots) :
    Exits table (last.update me (Proc.setState · .ZOMBIE)) me := by
  have hwakeup := fun slot => Proc.Rouses.wakeup (table.proc slot) (.ofProc (table.proc me).parent)
  have hrouses := fun slot => (hwakeup slot).trans (hpasses.rouses slot)
  have hparent := table.parent_wakeup1 (.ofProc (table.proc me).parent)
  have hsleeping : ∀ slot, (last.proc slot).state = .SLEEPING →
      ((table.wakeup1 (.ofProc (table.proc me).parent)).proc slot).state = .SLEEPING := by
    intro slot hsleeping
    rcases (hpasses.rouses slot).2.2 with hsame | ⟨hsleep, -⟩
    · exact hsame ▸ hsleeping
    · exact hsleep
  refine ⟨hinit, hpasses.globals, by rw [proc_update_self]; rfl, fun slot => ?_, fun slot => ?_, fun slot hslot => ?_,
    fun slot hslot hstate => ?_, fun slot hslot hstate hchan child hchild hzombie => ?_⟩
  · by_cases hslot : slot = me
    · subst hslot
      rw [proc_update_self]
      exact (hrouses slot).1
    · rw [proc_update_of_ne _ _ hslot]
      exact (hrouses slot).1
  · rw [parent_update _ _ _ rfl, hpasses.parent slot, hparent]
    simp only [slots, List.mem_finRange, true_and]
    rfl
  · rw [proc_update_of_ne _ _ hslot]
    exact hrouses slot
  · rw [proc_update_of_ne _ _ hslot] at hstate
    exact chan_ne_of_sleeping (hsleeping slot hstate)
  · rw [proc_update_of_ne _ _ hslot] at hstate
    refine hpasses.woken slot hstate ?_ child (List.mem_finRange child) ?_ ?_
    · exact (hwakeup slot).2.1.trans hchan
    · rw [hparent, hchild]
    · rcases (hwakeup child).2.2 with hsame | ⟨hsleep, -⟩
      · exact hsame.trans hzombie
      · rw [hzombie] at hsleep
        cases hsleep

theorem exit_exits (h : table.exit me = some next) : Exits table next me := by
  unfold exit at h
  split at h
  · cases h
  · rename_i hinit
    cases h
    have hpasses := (table.wakeup1 (.ofProc (table.proc me).parent)).abandon_all_passes me hinit slots
    exact hpasses.exits hinit

-- What one turn of the loop of wait does to the table.
inductive Waits (table : Ptable) (me : Slot) : Ptable × Waited → Prop
  | found (child : Slot) (hparent : (table.proc child).parent = some me)
      (hzombie : (table.proc child).state = .ZOMBIE) :
      Waits table me (table.update child Proc.freed, .found (table.proc child).pid)
  | none : Waits table me (table, .none)
  | sleeps (hchildren : ∀ child, (table.proc child).parent = some me → (table.proc child).state ≠ .ZOMBIE) :
      Waits table me (table.update me fun proc => { proc with chan := .proc me, state := .SLEEPING }, .sleeps)

theorem wait_waits (table : Ptable) (me : Slot) : Waits table me (table.wait me) := by
  unfold wait
  split
  · rename_i child hchild
    have hfound := List.find?_some hchild
    simp only [decide_eq_true_eq] at hfound
    exact .found child hfound.1 hfound.2
  · rename_i hnone
    split
    · exact .none
    · refine .sleeps fun child hparent hzombie => ?_
      have hchild := List.find?_eq_none.mp hnone child (List.mem_finRange child)
      simp only [decide_eq_true_eq] at hchild
      exact hchild ⟨hparent, hzombie⟩

end Ptable

end Xv6
