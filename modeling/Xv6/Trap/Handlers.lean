import Xv6.Trap.Theorems

namespace Xv6

open Program

-- psig is called where its caller still has work to do: inside a system call.
def Caller.inside : Caller → Bool
  | .sleep => true
  | .interrupt user => !user
  | .syscall => false

-- psig, called from inside a system call, finds no handler installed when it gets the lock.
def noHandlerInside : Point → Cpu → Bool
  | .lock (.psig caller), cpu => !caller.inside || cpu.proc.userdefed == 0
  | _, _ => true

def handlersContract : Contract Cpu Point Exit := kernelContract noHandlerInside (fun _ => True) fun
  | .jmptohandler caller _, cpu => cpu.syscall = none ∧ Idle cpu ∧ caller.inside = false
  | .restoreuser _, cpu => Idle cpu
  | _, _ => True

theorem handlers_psig (caller : Caller) (start cpu : Cpu) (ncli : Nat)
    (hcaller : caller.inside = false → ncli = 0 ∧ start.syscall = none) (hcpu : At (Called start) ncli false cpu) :
    (psig caller).wp handlersContract (fun _ => At (Called start) ncli false) cpu := by
  -- Once psig has the lock, it knows that there is no handler if it must not enter one.
  let keep : Cpu → Prop := fun cpu => Called start cpu ∧ (caller.inside = true → cpu.proc.userdefed = 0)
  have hsteady : Steady handlersContract 0 keep := kernelContract_userdefed (fun _ => trivial) _
  have hwindows := hsteady.windows ncli (fun _ => True) (fun _ _ _ hholding => hholding)
    (fun _ h _ => ⟨h.1.setDefaulted true, h.2⟩) (fun _ _ _ _ _ => trivial) (fun _ _ _ _ => trivial)
  refine wp_psig hwindows caller _ cpu hcpu.holding ?_ (fun _ _ _ => trivial) ?_
  · intro next hrely hready
    have hhandler : caller.inside = true → next.proc.userdefed = 0 := by
      intro hinside
      simpa [handlersContract, kernelContract, noHandlerInside, hinside] using hready
    have hnext : At keep ncli false next :=
      ⟨⟨hcpu.keep.undisturbed hrely, hhandler⟩, hrely.ncli.trans hcpu.ncli, hrely.holding.trans hcpu.holding⟩
    exact ⟨hnext.holding, hsteady.lock hnext, trivial⟩
  · rintro middle ⟨hmiddle, -⟩
    refine wp_mono (hsteady.holds.wp_psigStops middle hmiddle (fun _ _ _ _ _ => trivial) (fun _ _ _ _ _ => trivial)) ?_
    intro _ last hlast
    have hunlock := hsteady.unlock hlast
    rw [wp_psigHandlers caller _ last hlast.holding (by rw [hlast.ncli]; omega)]
    split
    · exact ⟨hunlock.keep.1, hunlock.ncli, rfl⟩
    · rename_i huserdefed
      have hinside : caller.inside = false := by
        by_contra hinside
        exact huserdefed (hlast.keep.2 (Bool.eq_true_of_not_eq_false hinside))
      obtain ⟨hzero, hnone⟩ := hcaller hinside
      exact ⟨hlast.keep.1.syscall.trans hnone, ⟨hunlock.ncli.trans hzero, rfl⟩, hinside⟩

theorem handlers_steady_syscall (num : Option Word) : Steady handlersContract 0 (fun cpu => cpu.syscall = num) :=
  kernelContract_steady (fun _ => trivial) (absurd rfl) (fun _ _ hcpu hnext => hnext.syscall.trans hcpu)
    (fun _ _ halike hbefore => halike.syscall.trans hbefore)

-- psig keeps what its caller knows if the caller knows no more than psig does.
theorem handlers_psig_keep (caller : Caller) (ncli : Nat) (num : Option Word) (cpu : Cpu)
    (hcaller : caller.inside = false → ncli = 0 ∧ num = none)
    (hcpu : At (fun cpu => cpu.syscall = num) ncli false cpu) :
    (psig caller).wp handlersContract (fun _ => At (fun cpu => cpu.syscall = num) ncli false) cpu := by
  have hstart : At (Called cpu) ncli false cpu := ⟨.refl cpu, hcpu.ncli, hcpu.holding⟩
  refine wp_mono (handlers_psig caller cpu cpu ncli ?_ hstart) ?_
  · intro hinside
    obtain ⟨hzero, hnone⟩ := hcaller hinside
    exact ⟨hzero, hcpu.keep.trans hnone⟩
  · intro _ last hlast
    exact ⟨hlast.keep.syscall.trans hcpu.keep, hlast.ncli, hlast.holding⟩

theorem handlers_serve : Serves handlersContract 0 (fun cpu => cpu.syscall = none)
    (fun num cpu => cpu.syscall = some num) (fun cpu => cpu.syscall = none) where
  steady := handlers_steady_syscall none
  steadyIn num := handlers_steady_syscall (some num)
  steadyLast := handlers_steady_syscall none
  call _ _ _ := rfl
  returns _ _ _ _ := rfl
  tested _ hcpu _ := hcpu
  effect _ _ _ hcpu := hcpu
  fuel _ _ _ _ := trivial
  restoreuser _ _ hcpu := ⟨hcpu.ncli, hcpu.holding⟩
  psigSleep num cpu hcpu := handlers_psig_keep .sleep 1 (some num) cpu nofun hcpu
  psigSyscall cpu hcpu := handlers_psig_keep .syscall 0 none cpu (fun _ => ⟨rfl, rfl⟩) hcpu

theorem handlers_entry (entry : Entry) (cpu : Cpu) (hcpu : Idle cpu) :
    (kernel.entry entry).wp handlersContract (fun _ => Idle) cpu := by
  refine wp_entry handlers_serve (fun cpu hcpu => ?_) entry cpu fun _ _ => ⟨rfl, hcpu.1, hcpu.2⟩
  exact handlers_psig_keep (.interrupt true) 0 none cpu (fun _ => ⟨rfl, rfl⟩) hcpu

theorem handlers_obey : kernel.Obeys handlersContract Idle (Resumes noHandlerInside) := by
  refine kernelContract_obeys (fun _ => trivial) (fun _ _ => id) (fun _ _ => Idle.undisturbed) handlers_entry ?_ ?_
  · exact fun start cpu hcpu => handlers_psig (.interrupt false) start cpu 0 nofun hcpu
  · intro way cpu hleaves hfinal
    rcases kernel_final hfinal with ⟨caller, delivery, rfl⟩ | ⟨context, rfl⟩
    · exact hleaves.2.1
    · exact hleaves

-- A handler is entered from a trap that was taken in user mode, and if that is a system
-- call it has returned, and no lock is held.
theorem handler_entered_idle (thread : Thread Cpu Point Exit) (caller : Caller) (delivery : Delivery) (cpu : Cpu)
    (hreach : kernel.Reach (Resumes noHandlerInside) Idle thread)
    (hexit : thread.exit = some (.jmptohandler caller delivery, cpu)) :
    (caller = .interrupt true ∨ caller = .syscall) ∧ cpu.syscall = none ∧ cpu.ncli = 0 := by
  obtain ⟨hsyscall, hidle, hinside⟩ := hreach.leaves handlers_obey (fun _ h => h) hexit
  refine ⟨?_, hsyscall, hidle.1⟩
  cases caller with
  | syscall => exact .inr rfl
  | sleep => cases hinside
  | interrupt user =>
    cases user with
    | true => exact .inl rfl
    | false => cases hinside

-- A process with a handler for SIGHUP.
def catcher : Cpu :=
  .user
    { Proc.zero with
      sz := 0x4000
      state := .RUNNING
      pid := 3
      userdefed := bit SIGHUP
      allinfo := fun signum => if signum = 1 then ⟨.USERDEF, 0x100⟩ else ⟨.DFL, 0⟩
      addrSigreturn := 0x200 }

-- A program about to make the system call of this number.
def calling (num : Word) : User := ⟨{ Trapframe.zero with eax := num, cs := 27, esp := 0x3000 }, fun _ => 0⟩

def SYS_getpid : Word := 11

theorem handler_entered_idle_getpid : ∃ thread, kernel.Reach (Resumes noHandlerInside) Idle thread ∧
    ∃ delivery cpu, thread.exit = some (.jmptohandler .syscall delivery, cpu) ∧ cpu.syscall = none ∧ cpu.ncli = 0 := by
  obtain ⟨thread, hreach, delivery, cpu, hexit⟩ : ∃ thread, kernel.Reach (Resumes noHandlerInside) Idle thread ∧
      ∃ delivery cpu, thread.exit = some (.jmptohandler .syscall delivery, cpu) :=
    kernel.exists_reach (show Idle catcher from ⟨rfl, rfl⟩)
      [.enter (.syscall (calling SYS_getpid) ⟨[], 3, 0, 0⟩), .resume, .env (.Kill SIGHUP), .resume, .resume]
      ⟨_, rfl, _, _, rfl⟩
  exact ⟨thread, hreach, delivery, cpu, hexit, (handler_entered_idle thread _ _ _ hreach hexit).2⟩

-- SIGHUP arrives while the process is in sleep, and while it is in getpid and the clock
-- ticks: the handler is entered with a lock held, or in the middle of the call.
theorem handler_entered_inside :
    (∃ thread, kernel.Reach (fun _ _ _ => True) Idle thread ∧ ∃ delivery cpu,
      thread.exit = some (.jmptohandler .sleep delivery, cpu) ∧ cpu.syscall = some SYS_sleep ∧ cpu.ncli = 1) ∧
    ∃ thread, kernel.Reach (fun _ _ _ => True) Idle thread ∧ ∃ delivery cpu,
      thread.exit = some (.jmptohandler (.interrupt false) delivery, cpu) ∧ cpu.syscall = some SYS_getpid := by
  have hidle : Idle catcher := ⟨rfl, rfl⟩
  constructor
  · exact kernel.exists_reach hidle
      [.enter (.syscall (calling SYS_sleep) ⟨[], 0, 5, 1⟩), .resume, .resume, .env (.Kill SIGHUP), .resume,
        .resume, .resume] ⟨_, rfl, _, _, rfl, rfl, rfl⟩
  · exact kernel.exists_reach hidle
      [.enter (.syscall (calling SYS_getpid) ⟨[.run ⟨id, fun _ h => h⟩], 3, 0, 0⟩), .resume, .env (.Kill SIGHUP),
        .interrupt (.timer false), .resume, .resume, .resume, .resume, .resume] ⟨_, rfl, _, _, rfl, rfl⟩

end Xv6
