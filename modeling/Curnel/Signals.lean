/-
signals.c, the rest of process.c, and the timer interrupt.

`schedule`, `signal_handle_pending`, `exit_process`, `stop_process` and
`signal_send` call each other. Every call takes one unit of fuel from its
caller; `none` stands for a call that does not return within the fuel it was
given. A signal handler is a function of the user: its call is an event, and it
returns without entering the kernel.
-/

import Curnel.Process

namespace Curnel.Process

/-! ### Signals -/

def SIGKILL : Nat := 9
def SIGTERM : Nat := 15
def SIGCHLD : Nat := 17
def SIGCONT : Nat := 18
def SIGSTOP : Nat := 19

def SIG_DFL : Nat := 0
def SIG_IGN : Nat := 1

/-- `1UL << signum`. -/
def sigBit (signum : Nat) : SigSet := 1#64 <<< signum

def defaultSignalActions : List Nat :=
  [0, SIGTERM, SIGTERM, SIGTERM ||| 0x80, SIGTERM ||| 0x80, SIGTERM ||| 0x80, SIGTERM ||| 0x80,
    SIGTERM ||| 0x80, SIGTERM ||| 0x80, SIGTERM, SIGTERM, SIGTERM ||| 0x80, SIGTERM, SIGTERM,
    SIGTERM, SIGTERM, SIGTERM, 0, 1, 2, 2, 2, 2, 0, SIGTERM, SIGTERM, SIGTERM, SIGTERM, 0,
    SIGTERM, SIGTERM, SIGTERM ||| 0x80]

/-- `process->pending_signals |= 1UL << signum`. -/
def setPending (i : Slot) (signum : Nat) (s : State) : State :=
  s.modify i fun p => { p with pendingSignals := p.pendingSignals ||| sigBit signum }

/-- `process->pending_signals &= ~(1UL << signum)`. -/
def clearPending (i : Slot) (signum : Nat) (s : State) : State :=
  s.modify i fun p => { p with pendingSignals := p.pendingSignals &&& ~~~ sigBit signum }

def signalAddPending (i : Slot) (signum : Int) (s : State) : Int × State :=
  if signum ≤ 0 ∨ signum ≥ MAX_SIGNALS then (-1, s)
  else if signum = SIGKILL ∨ signum = SIGSTOP then (0, setPending i signum.toNat s)
  else if (s.processes i).blockedSignals &&& sigBit signum.toNat = 0 then
    (0, setPending i signum.toNat s)
  else (0, s)

/-! ### The scan of `signal_handle_pending` -/

/-- What ends the scan of the pending signals. -/
inductive Fate where
  | none
  | terminate (signum : Nat)
  | stop
  | handled
deriving DecidableEq, Repr

/-- `handler(signum)`, between setting `handling_signal` and clearing it. -/
def callHandler (i : Slot) (signum handler : Nat) (s : State) : State :=
  (s.emit (.handlerCalled i signum handler (s.processes i).blockedSignals)).modify i
    fun p => { p with handlingSignal := false }

/-- The loop of `signal_handle_pending` from `signum` on, with `n` numbers to go,
up to the signal that ends it. -/
def pendingScan (i : Slot) : Nat → Nat → State → Fate × State
  | 0, _, s => (.none, s)
  | n + 1, signum, s =>
      let p := s.processes i
      if p.pendingSignals &&& sigBit signum ≠ 0 ∧ p.blockedSignals &&& sigBit signum = 0 then
        let s := clearPending i signum s
        let handler := (p.signalActions (Fin.ofNat MAX_SIGNALS signum)).handler
        if handler = SIG_DFL then
          let action := defaultSignalActions.getD signum 0
          if action &&& SIGTERM ≠ 0 then (.terminate signum, s)
          else if action = 0 then pendingScan i n (signum + 1) s
          else if action = 1 then
            if (s.processes i).state = .stopped then
              pendingScan i n (signum + 1) (continueProcess (s.processes i).pid s)
            else pendingScan i n (signum + 1) s
          else if action = 2 then (.stop, s)
          else pendingScan i n (signum + 1) s
        else if handler = SIG_IGN then pendingScan i n (signum + 1) s
        else
          (.handled, callHandler i signum handler s)
      else pendingScan i n (signum + 1) s

/-- `signal_handle_pending` up to the signal that ends its loop. -/
def pendingFate (i : Slot) (s : State) : Fate × State :=
  if s.signalHandlingEnabled = false then (.none, s)
  else if (s.processes i).handlingSignal then (.none, s)
  else pendingScan i (MAX_SIGNALS - 1) 1 s

/-! ### What `exit_process` does before it enters the scheduler -/

def kfreeStack (i : Slot) (s : State) : State :=
  if (s.processes i).stack ≠ NULL then
    (s.emit (.kfree (s.processes i).stack)).modify i fun p => { p with stack := NULL }
  else s

def kfreeSignalStack (i : Slot) (s : State) : State :=
  if (s.processes i).signalStack ≠ NULL then
    (s.emit (.kfree (s.processes i).signalStack)).modify i fun p => { p with signalStack := NULL }
  else s

/-- The children of `pid` become children of `init`. -/
def orphanChildren (pid : Nat) (s : State) : State :=
  { s with
    processes := fun i =>
      let p := s.processes i
      if p.pid ≠ 0 ∧ p.parentPid = pid then { p with parentPid := 1 } else p }

/-- From the first `kfree` to the assignment of `PROCESS_STATE_ZOMBIE`. -/
def makeZombie (i : Slot) (pid : Nat) (s : State) : State :=
  ((orphanChildren pid (kfreeSignalStack i (kfreeStack i s))).setState i .zombie).emit (.exited i)

/-! ### The scheduler -/

mutual

def schedule : Nat → State → Option State
  | 0, _ => none
  | fuel + 1, s =>
      match nextRunnable s with
      | none => some s
      | some i =>
          let s := { s with currentProcessIndex := i }
          if (s.processes i).pid ≠ 0 then
            match signalHandlePending fuel i (s.setState i .running) with
            | none => none
            | some (_, s) => some (switchToProcess (s.processes s.currentProcessIndex).pid s)
          else some s

def signalHandlePending : Nat → Slot → State → Option (Int × State)
  | 0, _, _ => none
  | fuel + 1, i, s =>
      match pendingFate i s with
      | (.none, s) => some (0, s)
      | (.terminate signum, s) =>
          (exitProcess fuel (s.processes i).pid (128 + signum) s).map fun s => (1, s)
      | (.stop, s) => (stopProcess fuel (s.processes i).pid s).map fun s => (1, s)
      | (.handled, s) => some (1, s)

def exitProcess : Nat → Nat → Nat → State → Option State
  | 0, _, _, _ => none
  | fuel + 1, pid, _exitCode, s =>
      match getProcess pid s with
      | none => some s
      | some i =>
          let notified :=
            if (s.processes i).exitSignal ≠ 0 then
              match getProcess (s.processes i).parentPid s with
              | none => some s
              | some parent =>
                  (signalSend fuel parent (s.processes i).exitSignal s).map Prod.snd
            else some s
          match notified with
          | none => none
          | some s =>
              let notified :=
                if (s.processes i).parentPid ≠ 0 then
                  match getProcess (s.processes i).parentPid s with
                  | none => some s
                  | some parent => (signalSend fuel parent SIGCHLD s).map Prod.snd
                else some s
              match notified with
              | none => none
              | some s => schedule fuel (makeZombie i pid s)

def stopProcess : Nat → Nat → State → Option State
  | 0, _, _ => none
  | fuel + 1, pid, s =>
      match getProcess pid s with
      | none => some s
      | some i => schedule fuel (s.setState i .stopped)

def signalSend : Nat → Slot → Int → State → Option (Int × State)
  | 0, _, _, _ => none
  | fuel + 1, i, signum, s =>
      if signum ≤ 0 ∨ signum ≥ MAX_SIGNALS then some (-1, s)
      else if signum = SIGKILL then
        (exitProcess fuel (s.processes i).pid (128 + SIGKILL) s).map fun s => (0, s)
      else if signum = SIGSTOP then
        (stopProcess fuel (s.processes i).pid s).map fun s => (0, s)
      else if signum = SIGCONT then
        if (s.processes i).state = .stopped then
          some (0, continueProcess (s.processes i).pid s)
        else some (0, s)
      else some (signalAddPending i signum s)

end

/-! ### Sleeping and the timer -/

def sleepProcess (fuel pid ms : Nat) (s : State) : Option State :=
  match getProcess pid s with
  | none => some s
  | some i =>
      schedule fuel (s.modify i fun p =>
        { p with sleepUntil := Lib.Word.wadd 64 s.timerTicks ms, state := .sleeping })

/-- The body of the loop of `timer_handler` for PID `pid`. -/
def timerWake (pid : Nat) (s : State) : State :=
  match getProcess pid s with
  | none => s
  | some i =>
      if (s.processes i).state = .sleeping then
        if s.timerTicks ≥ (s.processes i).sleepUntil then s.setState i .ready else s
      else s

/-- The loop of `timer_handler` from `pid` on, with `n` numbers to go. -/
def timerLoop : Nat → Nat → State → State
  | 0, _, s => s
  | n + 1, pid, s => timerLoop n (pid + 1) (timerWake pid s)

/-- The timer interrupt. No callback is ever registered. With a frequency below
100 Hz its remainder divides by zero, and it does not return. -/
def timerHandler (fuel : Nat) (s : State) : Option State :=
  let s := timerLoop MAX_PROCESSES 0 { s with timerTicks := Lib.Word.wadd 64 s.timerTicks 1 }
  if s.timerFrequency / 100 = 0 then none
  else if s.timerTicks % (s.timerFrequency / 100) = 0 then schedule fuel s
  else some s

/-! ### Actions and masks -/

/-- The checks of `signal_set_handler` and `signal_set_action`, and the change of
the current process's action for `signum`. The result is the old action. -/
def changeAction (signum : Int) (f : SignalAction → SignalAction) (s : State) :
    Option SignalAction × State :=
  if signum ≤ 0 ∨ signum ≥ MAX_SIGNALS then (none, s)
  else
    match getCurrentProcess s with
    | none => (none, s)
    | some i =>
        if signum = SIGKILL ∨ signum = SIGSTOP then (none, s)
        else
          let n := Fin.ofNat MAX_SIGNALS signum.toNat
          (some ((s.processes i).signalActions n), s.modify i fun p =>
            { p with signalActions := Function.update p.signalActions n (f (p.signalActions n)) })

def signalSetHandler (signum : Int) (handler : Nat) (s : State) : Int × State :=
  match changeAction signum (fun action => { action with handler := handler }) s with
  | (none, s) => (-1, s)
  | (some old, s) => (Lib.Word.toInt32 old.handler, s)

/-- `act` is `none` for a null pointer. What is stored at `oldact` comes with the result. -/
def signalSetAction (signum : Int) (act : Option SignalAction) (s : State) :
    Int × Option SignalAction × State :=
  match changeAction signum (fun action => act.getD action) s with
  | (none, s) => (-1, none, s)
  | (some old, s) => (0, some old, s)

/-- `mask & ~((1UL << SIGKILL) | (1UL << SIGSTOP))`. -/
def maskable (mask : SigSet) : SigSet := mask &&& ~~~ (sigBit SIGKILL ||| sigBit SIGSTOP)

/-- Change the mask of the current process. The result is the old mask. -/
def changeMask (f : SigSet → SigSet) (s : State) : Option SigSet × State :=
  match getCurrentProcess s with
  | none => (none, s)
  | some i =>
      (some (s.processes i).blockedSignals,
        s.modify i fun p => { p with blockedSignals := f p.blockedSignals })

def signalBlock (mask : SigSet) (s : State) : Int × State :=
  match changeMask (fun blocked => blocked ||| maskable mask) s with
  | (none, s) => (-1, s)
  | (some old, s) => (Lib.Word.toInt32 old.toNat, s)

def signalUnblock (mask : SigSet) (s : State) : Int × State :=
  match changeMask (fun blocked => blocked &&& ~~~ mask) s with
  | (none, s) => (-1, s)
  | (some old, s) => (Lib.Word.toInt32 old.toNat, s)

/-- What is stored at `oldmask` comes with the result. -/
def signalSetMask (mask : SigSet) (s : State) : Int × Option SigSet × State :=
  match changeMask (fun _ => maskable mask) s with
  | (none, s) => (-1, none, s)
  | (some old, s) => (0, some old, s)

/-- `set` is `none` for a null pointer. What is stored at `oldset` comes with the
result; that happens before `how` is looked at. -/
def signalProcMask (how : Int) (set : Option SigSet) (s : State) : Int × Option SigSet × State :=
  let change (f : SigSet → SigSet) (result : Int) : Int × Option SigSet × State :=
    match changeMask f s with
    | (none, s) => (-1, none, s)
    | (some old, s) => (result, some old, s)
  match set with
  | none => change id 0
  | some mask =>
      if how = 0 then change (fun blocked => blocked ||| maskable mask) 0
      else if how = 1 then change (fun blocked => blocked &&& ~~~ maskable mask) 0
      else if how = 2 then change (fun _ => maskable mask) 0
      else change id (-1)

/-- The set that `sys_sigpending` copies to its caller. -/
def sysSigpending (s : State) : Option SigSet :=
  (getCurrentProcess s).map fun i => (s.processes i).pendingSignals

/-- `sys_sigsuspend` up to the return of its `schedule`. The result is the caller
and its old mask, both of which it needs when it goes on. -/
def sysSigsuspend (fuel : Nat) (mask : SigSet) (s : State) :
    Option (Option (Slot × SigSet) × State) :=
  match getCurrentProcess s with
  | none => some (none, s)
  | some i =>
      (schedule fuel (blockProcess (s.processes i).pid
        (s.modify i fun p => { p with blockedSignals := maskable mask }))).map
          fun t => (some (i, (s.processes i).blockedSignals), t)

/-- The end of `sys_sigsuspend`, once its caller runs again. -/
def sigsuspendResume (i : Slot) (oldMask : SigSet) (s : State) : State :=
  s.modify i fun p => { p with blockedSignals := oldMask }

end Curnel.Process
