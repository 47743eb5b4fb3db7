import HujiOS.Runs
import HujiOS.Sockets.CommandLine
import Mathlib.Data.List.Infix
import Mathlib.Logic.Function.Basic

/-!
# Building a container

`main` and `child` of `container.cpp`.  Both run straight through their calls to
the system; what a call returns is chosen from outside.  They meet three times:
the parent clones the child, they wait for each other at a barrier in shared
memory, and the parent waits for the child to end.
-/

namespace Containers

open Runs Sockets

/-- The arguments of the container. -/
structure ChildState where
  newHostname : List UInt8
  newFilesystemPath : List UInt8
  maxNProcesses : Int
  programPath : List UInt8
  programArgs : List (List UInt8)
  deriving DecidableEq, Repr

/-- `none` is the null pointer at the end. -/
def ChildState.toCArgs (args : ChildState) : List (Option (List UInt8)) :=
  some args.programPath :: args.programArgs.map some ++ [none]

/-- `none` where it throws: a string of a null pointer, or `std::stoi`. -/
def fetchChildArgs : List (List UInt8) → Option ChildState
  | _ :: hostname :: filesystem :: processes :: program :: args =>
      match stoi processes with
      | .ok maxNProcesses => some ⟨hostname, filesystem, maxNProcesses, program, args⟩
      | .error _ => none
  | _ => none

/-- The calls to the system; `arrive` and `leave` are the halves of
`pthread_barrier_wait`. -/
inductive Call
  | barrierattrInit | barrierattrSetpshared | barrierInit
  | clone
  | mkdir | writeProcs | writePidsMax | writeNotify
  | arrive | leave
  | barrierDestroy | barrierattrDestroy | munmap
  | wait | umount | rmdir
  | sethostname | chroot | chdir | mount
  | execve
  deriving DecidableEq, Repr

/-- `barrierInit`: the barrier in shared memory. -/
def barrierInit : List Call := [.barrierattrInit, .barrierattrSetpshared, .barrierInit]

/-- `configureCgroups`: the directory and its three files. -/
def configureCgroups : List Call := [.mkdir, .writeProcs, .writePidsMax, .writeNotify]

def barrierWait : List Call := [.arrive, .leave]

def barrierDestroy : List Call := [.barrierDestroy, .barrierattrDestroy, .munmap]

def cleanupCgroups : List Call := [.rmdir]

/-- The calls of the parent, in the order of `main`. -/
def main : List Call :=
  barrierInit ++ [.clone] ++ configureCgroups ++ barrierWait ++ barrierDestroy ++
    [.wait, .umount] ++ cleanupCgroups

/-- `setContainerNS`: the host name, the root and `/proc`. -/
def setContainerNS : List Call := [.sethostname, .chroot, .chdir, .mount]

/-- The calls of the child, up to its program. -/
def child : List Call := setContainerNS ++ barrierWait ++ [.munmap, .execve]

/-- The two processes. -/
inductive Side
  | parent
  | child
  deriving DecidableEq, Repr

def code : Side → List Call
  | .parent => main
  | .child => child

/-- What the code does with a call that fails. -/
inductive OnFailure
  | panic (failedFunc : String)
  /-- `perror`, and the end -/
  | ends (text : String)
  /-- `perror`, and on -/
  | reports (text : String)
  | ignored
  deriving DecidableEq, Repr

/-- The texts are those of the source. -/
def onFailure : Side → Call → OnFailure
  | _, .barrierattrInit => .panic "pthread_barrierattr_init()"
  | _, .barrierattrSetpshared => .panic "pthread_barrierattr_setpshared()"
  | _, .barrierInit => .panic "pthread_barrier_init()"
  | _, .clone => .panic "clone()"
  | _, .mkdir => .panic "mkdir() couldn't create cgroup"
  | _, .writeProcs => .ignored
  | _, .writePidsMax => .ignored
  | _, .writeNotify => .ignored
  | .parent, .arrive => .panic "parent cgroup_barrier: "
  | .child, .arrive => .reports "child cgroup_barrier() "
  | _, .leave => .ignored
  | _, .barrierDestroy => .panic "parent pthread_barrier_destroy: "
  | _, .barrierattrDestroy => .panic "pthread_barrierattr_destroy: "
  | .parent, .munmap => .panic "munmap () pthread_barrier_t"
  | .child, .munmap => .panic "munmap() pthread_barrier_t "
  | _, .wait => .ignored
  | _, .umount => .panic "umount2() proc"
  | _, .rmdir => .panic "Couldn't remove cgroup directory"
  | _, .sethostname => .panic "sethostname()"
  | _, .chroot => .panic "chroot()"
  | _, .chdir => .panic "chdir()"
  | _, .mount => .panic "mount()"
  | _, .execve => .ends "system error: execve() - "

/-- What was written through a stream. -/
inductive Stream (α : Type)
  | untouched
  | failed
  | wrote (value : α)
  deriving DecidableEq, Repr

/-- The value was written, or the stream took nothing. -/
def Stream.Holds {α : Type} (stream : Stream α) (value : α) : Prop :=
  stream = .failed ∨ stream = .wrote value

theorem Stream.Holds.written {α : Type} {stream : Stream α} {value : α} {c : Prop} [Decidable c]
    {failed : Bool} (h : stream.Holds value) :
    (if c then (if failed then .failed else .wrote value) else stream).Holds value := by
  split
  · cases failed with
    | true => exact Or.inl rfl
    | false => exact Or.inr rfl
  · exact h

/-- What the two processes share, and what the child's namespaces hold. -/
structure World where
  /-- how many have arrived at the barrier, once it is initialised -/
  barrier : Option Nat
  cgroupDir : Bool
  procs : Stream Nat
  pidsMax : Stream Int
  notifyOnRelease : Stream Nat
  hostname : Option (List UInt8)
  root : Option (List UInt8)
  workingDir : Option (List UInt8)
  procMounted : Bool
  /-- what the parent has unmounted -/
  unmounted : Option (List UInt8)
  deriving DecidableEq, Repr

/-- Where a process is in its life. -/
inductive Life
  /-- not cloned yet -/
  | absent
  | running
  /-- past `execve` -/
  | program (path : List UInt8) (args : List (Option (List UInt8)))
  | exited (status : Nat)
  deriving DecidableEq, Repr

/-- The calls that a process has still to make, or has not got to. -/
structure Process where
  calls : List Call
  life : Life
  cerr : List String
  deriving DecidableEq, Repr

/-- The two processes and what they have changed in the system. -/
structure Container where
  process : Side → Process
  world : World

/-- What the call returns; only `mkdir` tells `eexist` from an error. -/
inductive Reply
  | ok
  | eexist
  | error
  deriving DecidableEq, Repr

/-- A call with what it returns, or the end of the program. -/
inductive ContainerEvent
  | call (side : Side) (reply : Reply)
  /-- the program that the child has become ends -/
  | programEnds (status : Nat)
  deriving DecidableEq, Repr

/-- What the builder is given: its arguments and the number of the child. -/
structure Setup where
  args : ChildState
  childPid : Nat

def nProcsInBarrier : Nat := 2

/-- `pthread_barrier_wait` fails only for a barrier that is not initialised. -/
def fails (world : World) : Call → Reply → Bool
  | .arrive, _ => world.barrier.isNone
  | .leave, _ => false
  | .mkdir, reply => reply = .error
  | _, reply => reply ≠ .ok

/-- `"/"` -/
def slash : List UInt8 := [47]

/-- `"/proc"` -/
def slashProc : List UInt8 := [47, 112, 114, 111, 99]

/-- What each part of the world holds after a call. -/
def effect (setup : Setup) (failed : Bool) (call : Call) (world : World) : World where
  barrier :=
    if failed then world.barrier
    else match call with
      | .barrierInit => some 0
      | .arrive => world.barrier.map (· + 1)
      | .barrierDestroy => none
      | _ => world.barrier
  cgroupDir :=
    if failed then world.cgroupDir
    else match call with
      | .mkdir => true
      | .rmdir => false
      | _ => world.cgroupDir
  procs :=
    if call = .writeProcs then (if failed then .failed else .wrote setup.childPid)
    else world.procs
  pidsMax :=
    if call = .writePidsMax then (if failed then .failed else .wrote setup.args.maxNProcesses)
    else world.pidsMax
  notifyOnRelease :=
    if call = .writeNotify then (if failed then .failed else .wrote 1) else world.notifyOnRelease
  hostname :=
    if call = .sethostname ∧ ¬ failed then some setup.args.newHostname else world.hostname
  root :=
    if call = .chroot ∧ ¬ failed then some setup.args.newFilesystemPath else world.root
  workingDir := if call = .chdir ∧ ¬ failed then some slash else world.workingDir
  procMounted := if call = .mount ∧ ¬ failed then true else world.procMounted
  unmounted :=
    if call = .umount ∧ ¬ failed then some (setup.args.newFilesystemPath ++ slashProc)
    else world.unmounted

def Life.live : Life → Bool
  | .running => true
  | .program .. => true
  | _ => false

/-- The text before the error number. -/
def panicText (failedFunc : String) : String := "system error: " ++ failedFunc ++ " - "

namespace Container

/-- The parent runs, and nothing is set up. -/
def create : Container where
  process := fun
    | .parent => ⟨main, .running, []⟩
    | .child => ⟨child, .absent, []⟩
  world := ⟨none, false, .untouched, .untouched, .untouched, none, none, none, false, none⟩

def update (s : Container) (side : Side) (p : Process) : Container :=
  { s with process := Function.update s.process side p }

/-- Whether a call returns. -/
def ready (s : Container) : Call → Bool
  | .leave => s.world.barrier.all (nProcsInBarrier ≤ ·)
  | .wait => !(s.process .child).life.live
  | _ => true

variable (setup : Setup)

/-- A process makes its next call and goes on with the `rest`. -/
def perform (s : Container) (side : Side) (call : Call) (rest : List Call) (failed : Bool) :
    Container :=
  let p := s.process side
  let s := { s with world := effect setup failed call s.world }
  if failed then
    match onFailure side call with
    | .panic failedFunc =>
        s.update side { p with life := .exited 1, cerr := p.cerr ++ [panicText failedFunc] }
    | .ends text => s.update side { p with life := .exited 1, cerr := p.cerr ++ [text] }
    | .reports text => s.update side { p with calls := rest, cerr := p.cerr ++ [text] }
    | .ignored => s.update side { p with calls := rest }
  else
    match call with
    | .clone =>
        (s.update side { p with calls := rest }).update .child
          { s.process .child with life := .running }
    | .execve =>
        s.update side
          { p with calls := rest, life := .program setup.args.programPath setup.args.toCArgs }
    | _ => s.update side { p with calls := rest }

/-- One event, where it is possible: a running process makes its next call if
that returns. -/
def step (s : Container) : ContainerEvent → Option Container
  | .call side reply =>
      let p := s.process side
      if p.life = .running then
        match p.calls with
        | [] => some (s.update side { p with life := .exited 0 })
        | call :: rest =>
            if s.ready call then some (s.perform setup side call rest (fails s.world call reply))
            else none
      else none
  | .programEnds status =>
      match (s.process .child).life with
      | .program .. => some (s.update .child { s.process .child with life := .exited status })
      | _ => none

/-- Some order of the calls and some failures lead to `s`. -/
def Reachable (s : Container) : Prop := Reaches (step setup) create s

/-! ## The order of the calls -/

variable {setup} {s t : Container} {side : Side} {call : Call}

/-- The process has come past the call. -/
def Made (s : Container) (side : Side) (call : Call) : Prop :=
  call ∈ code side ∧ call ∉ (s.process side).calls

instance (s : Container) (side : Side) (call : Call) : Decidable (s.Made side call) :=
  inferInstanceAs (Decidable (_ ∧ _))

/-- Whoever has come past `late` has come past `early`. -/
def Before (side : Side) (early late : Call) : Prop :=
  early ∈ code side ∧ late ∈ code side ∧ ∀ calls ∈ (code side).tails, early ∈ calls → late ∈ calls

instance (side : Side) (early late : Call) : Decidable (Before side early late) :=
  inferInstanceAs (Decidable (_ ∧ _ ∧ _))

/-- No process makes a call twice. -/
theorem nodup_code (side : Side) : (code side).Nodup := by
  cases side with
  | parent => decide
  | child => decide

theorem Made.before {early late : Call} (h : s.Made side late) (hbefore : Before side early late)
    (hsuffix : (s.process side).calls <:+ code side) : s.Made side early :=
  ⟨hbefore.1, mt (hbefore.2.2 _ ((List.mem_tails _ _).mpr hsuffix)) h.2⟩

/-- A process whose next call is `late` has come past what is before it. -/
theorem made_at {early late : Call} {rest : List Call}
    (hcalls : (s.process side).calls = late :: rest)
    (hsuffix : (s.process side).calls <:+ code side) (hbefore : Before side early late)
    (hne : early ≠ late) : s.Made side early := by
  refine ⟨hbefore.1, fun hmem => ?_⟩
  rw [hcalls] at hsuffix hmem
  have hrest := (List.mem_cons.mp hmem).resolve_left hne
  have hlate := hbefore.2.2 rest
    ((List.mem_tails _ _).mpr ((List.suffix_cons late rest).trans hsuffix)) hrest
  exact (List.nodup_cons.mp ((nodup_code side).sublist hsuffix.sublist)).1 hlate

/-- A process whose next call is `early` has not come past what is after it. -/
theorem not_made_at {early late : Call} {rest : List Call}
    (hcalls : (s.process side).calls = early :: rest)
    (hsuffix : (s.process side).calls <:+ code side) (hbefore : Before side early late) :
    ¬ s.Made side late := by
  intro hmade
  refine (hmade.before hbefore hsuffix).2 ?_
  rw [hcalls]
  exact List.mem_cons_self

/-! ## What a step can do -/

/-- The next call of a process is made and the process goes on. -/
structure Makes (setup : Setup) (s t : Container) (side : Side) (call : Call) (failed : Bool) :
    Prop where
  running : (s.process side).life = .running
  calls : (s.process side).calls = call :: (t.process side).calls
  others : ∀ other, other ≠ side → (t.process other).calls = (s.process other).calls
  ready : s.ready call = true
  opened : call = .arrive → failed = s.world.barrier.isNone
  world : t.world = effect setup failed call s.world

/-- Everything an event can do. -/
inductive Move (setup : Setup) (s : Container) : Container → Prop
  | goes {t : Container} {side : Side} {call : Call} {failed : Bool}
      (hmakes : Makes setup s t side call failed)
      (hcall : failed = false → call ≠ .clone ∧ call ≠ .execve)
      (hfailed : failed = true → ∀ text, onFailure side call ≠ .panic text)
      (hlife : ∀ other, (t.process other).life = (s.process other).life) : Move setup s t
  | clones {t : Container} (hmakes : Makes setup s t .parent .clone false)
      (hchild : (t.process .child).life = .running)
      (hparent : (t.process .parent).life = (s.process .parent).life) : Move setup s t
  | execs {t : Container} {side : Side} (hmakes : Makes setup s t side .execve false)
      (hlife : (t.process side).life = .program setup.args.programPath setup.args.toCArgs)
      (hothers : ∀ other, other ≠ side → (t.process other).life = (s.process other).life) :
      Move setup s t
  | stops {side : Side} {call : Call} {rest : List Call} {cerr : List String}
      (hrunning : (s.process side).life = .running)
      (hcalls : (s.process side).calls = call :: rest)
      (hfails : onFailure side call ≠ .ignored ∧ ∀ text, onFailure side call ≠ .reports text)
      (hopened : call = .arrive → s.world.barrier = none) :
      Move setup s (s.update side { s.process side with life := .exited 1, cerr := cerr })
  | returns {side : Side} (hrunning : (s.process side).life = .running)
      (hcalls : (s.process side).calls = []) :
      Move setup s (s.update side { s.process side with life := .exited 0 })
  | ends {path : List UInt8} {args : List (Option (List UInt8))} {status : Nat}
      (hprogram : (s.process .child).life = .program path args) :
      Move setup s (s.update .child { s.process .child with life := .exited status })

@[simp] theorem update_self (s : Container) (side : Side) (p : Process) :
    (s.update side p).process side = p := Function.update_self ..

theorem update_other {other : Side} (h : other ≠ side) (s : Container) (p : Process) :
    (s.update side p).process other = s.process other := Function.update_of_ne h ..

theorem update_calls {p : Process} (hcalls : p.calls = (s.process side).calls) (other : Side) :
    ((s.update side p).process other).calls = (s.process other).calls := by
  by_cases hother : other = side
  · rw [hother, update_self, hcalls]
  · rw [update_other hother]

/-- A failed call has no effect, but for the streams. -/
theorem effect_of_stops (hfails : onFailure side call ≠ .ignored) (world : World) :
    effect setup true call world = world := by
  cases call <;> first | exact absurd rfl hfails | rfl

theorem parent_ne_child : Side.parent ≠ Side.child := Side.noConfusion

section

variable {rest : List Call} {failed : Bool} (hrunning : (s.process side).life = .running)
  (hcalls : (s.process side).calls = call :: rest) (hready : s.ready call = true)
  (hopened : call = .arrive → failed = s.world.barrier.isNone)

include hrunning hcalls hready hopened

theorem makes_update {p : Process} (hp : p.calls = rest) :
    Makes setup s ({ s with world := effect setup failed call s.world }.update side p) side call
      failed where
  running := hrunning
  calls := by
    rw [update_self, hp]
    exact hcalls
  others := fun other hother => by rw [update_other hother]
  ready := hready
  opened := hopened
  world := rfl

theorem goes_update {p : Process} (hp : p.calls = rest) (hlife : p.life = (s.process side).life)
    (hcall : failed = false → call ≠ .clone ∧ call ≠ .execve)
    (hfailed : failed = true → ∀ text, onFailure side call ≠ .panic text) :
    Move setup s ({ s with world := effect setup failed call s.world }.update side p) := by
  refine .goes (makes_update hrunning hcalls hready hopened hp) hcall hfailed fun other => ?_
  by_cases hother : other = side
  · rw [hother, update_self, hlife]
  · rw [update_other hother]

theorem perform_move (hside : call = .clone → side = .parent) :
    Move setup s (s.perform setup side call rest failed) := by
  unfold perform
  cases failed with
  | true =>
      have hnone : call = .arrive → s.world.barrier = none := fun harrive =>
        Option.isNone_iff_eq_none.mp (hopened harrive).symm
      simp only [if_true]
      cases hfails : onFailure side call with
      | panic text =>
          have hnot : onFailure side call ≠ .ignored := by simp [hfails]
          rw [effect_of_stops hnot]
          exact .stops hrunning hcalls ⟨hnot, by simp [hfails]⟩ hnone
      | ends text =>
          have hnot : onFailure side call ≠ .ignored := by simp [hfails]
          rw [effect_of_stops hnot]
          exact .stops hrunning hcalls ⟨hnot, by simp [hfails]⟩ hnone
      | reports text =>
          exact goes_update hrunning hcalls hready hopened rfl rfl (by simp) (by simp [hfails])
      | ignored =>
          exact goes_update hrunning hcalls hready hopened rfl rfl (by simp) (by simp [hfails])
  | false =>
      simp only [Bool.false_eq_true, if_false]
      split
      · -- `clone`
        obtain rfl := hside rfl
        refine .clones ⟨hrunning, ?_, ?_, hready, hopened, rfl⟩ (by rw [update_self]) ?_
        · rw [update_other parent_ne_child, update_self]
          exact hcalls
        · intro other hother
          cases other with
          | parent => exact absurd rfl hother
          | child => rw [update_self]
        · rw [update_other parent_ne_child, update_self]
      · -- `execve`
        refine .execs (makes_update hrunning hcalls hready hopened rfl) ?_ ?_
        · rw [update_self]
        · intro other hother
          rw [update_other hother]
      · next hclone hexecve =>
          exact goes_update hrunning hcalls hready hopened rfl rfl
            (fun _ => ⟨hclone, hexecve⟩) (by simp)

end

/-- Every event is one that `Move` lists. -/
theorem step_move {e : ContainerEvent} (h : s.step setup e = some t)
    (hsuffix : ∀ side, (s.process side).calls <:+ code side) : Move setup s t := by
  cases e with
  | call side reply =>
      obtain ⟨hrunning, h⟩ := Option.ite_none_right_eq_some.mp h
      cases hcalls : (s.process side).calls with
      | nil =>
          have hreturns : Move setup s _ := .returns hrunning hcalls
          simp only [hcalls] at h hreturns
          exact Option.some.inj h ▸ hreturns
      | cons call rest =>
          rw [hcalls] at h
          obtain ⟨hready, ht⟩ := Option.ite_none_right_eq_some.mp h
          obtain rfl := Option.some.inj ht
          refine perform_move hrunning hcalls hready ?_ ?_
          · intro harrive
            rw [harrive]
            rfl
          · intro hclone
            have hmem : Call.clone ∈ code side :=
              (hsuffix side).subset (hcalls ▸ hclone ▸ List.mem_cons_self)
            cases side with
            | parent => rfl
            | child => exact absurd hmem (by decide)
  | programEnds status =>
      cases hlife : (s.process .child).life with
      | program path args =>
          simp only [step, hlife] at h
          exact Option.some.inj h ▸ .ends hlife
      | absent => simp [step, hlife] at h
      | running => simp [step, hlife] at h
      | exited code => simp [step, hlife] at h

end Container

end Containers
