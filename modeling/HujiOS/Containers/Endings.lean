import HujiOS.Containers.Meeting

/-!
# What the program starts with, and how it all ends

The program that the child becomes starts in the new name spaces and after the
parent has set its limits, whatever the order of the steps and whatever fails.
Building comes to an end in every run; where a process fails before the barrier,
the other one waits there for ever.
-/

namespace Containers

open Runs

namespace Container

variable {setup : Setup} {s t : Container} {side : Side}

/-! ## The lives of the two processes -/

/-- A call at which a process can end. -/
def Stops (side : Side) (call : Call) : Prop :=
  onFailure side call ≠ .ignored ∧ (∀ text, onFailure side call ≠ .reports text) ∧ call ≠ .arrive

/-- The invariant of the two processes: how each has ended, and that the child
has not begun before the clone. -/
structure Inv (setup : Setup) (s : Container) : Prop where
  meets : Meets setup s
  parent : (s.process .parent).life = .running ∨
    (s.process .parent).life = .exited 0 ∧ (s.process .parent).calls = [] ∨
    (s.process .parent).life = .exited 1 ∧
      ∃ call ∈ (s.process .parent).calls.head?, Stops .parent call
  absent : (s.process .child).life = .absent ↔ ¬ s.Made .parent .clone
  program : ∀ path args, (s.process .child).life = .program path args →
    path = setup.args.programPath ∧ args = setup.args.toCArgs ∧ s.Made .child .execve
  exited : ∀ status, (s.process .child).life = .exited status → s.Made .child .execve ∨
    status = 1 ∧ ∃ call ∈ (s.process .child).calls.head?, Stops .child call
  waited : s.Made .parent .wait → ∃ status, (s.process .child).life = .exited status

theorem Inv.create : Inv setup create where
  meets := Meets.create
  parent := Or.inl rfl
  absent := iff_of_true rfl (by decide)
  program := fun _ _ hlife => (nomatch hlife)
  exited := fun _ hlife => (nomatch hlife)
  waited := fun hmade => absurd hmade.1 hmade.2

namespace Inv

/-- A child that runs was cloned. -/
theorem cloned (h : Inv setup s) (hlife : (s.process side).life = .running)
    (hside : side = .child) : s.Made .parent .clone := by
  subst hside
  exact not_not.mp fun hnot => by simp [h.absent.mpr hnot] at hlife

/-- A call that goes on and starts nothing. -/
theorem goes {call : Call} {failed : Bool} (h : Inv setup s)
    (hmakes : Makes setup s t side call failed)
    (hcall : failed = false → call ≠ .clone ∧ call ≠ .execve)
    (hgoes : failed = true → ∀ text, onFailure side call ≠ .panic text)
    (hlife : ∀ other, (t.process other).life = (s.process other).life) : Inv setup t := by
  have hmade := hmakes.made_iff (h.meets.suffix side)
  have hclone : call ≠ .clone := by
    intro hclone
    cases failed with
    | false => exact (hcall rfl).1 hclone
    | true => exact hgoes rfl "clone()" (hclone ▸ rfl)
  -- whoever has ended has made no call
  have hended : ∀ {other status}, (s.process other).life = .exited status →
      (t.process other).calls = (s.process other).calls := by
    intro other status hexited
    refine hmakes.others other fun hsame => ?_
    rw [hsame, hmakes.running] at hexited
    exact nomatch hexited
  refine ⟨h.meets.makes hmakes (h.cloned hmakes.running) hgoes, ?_, ?_, ?_, ?_, ?_⟩
  · rw [hlife]
    rcases h.parent with hrunning | ⟨hexited, hcalls⟩ | ⟨hexited, hstops⟩
    · exact Or.inl hrunning
    · exact Or.inr (Or.inl ⟨hexited, (hended hexited).trans hcalls⟩)
    · exact Or.inr (Or.inr ⟨hexited, (hended hexited).symm ▸ hstops⟩)
  · rw [hlife, h.absent, hmakes.made_iff_of_ne (h.meets.suffix side) hclone.symm]
  · intro path args hprogram
    obtain ⟨hpath, hargs, hexecve⟩ := h.program path args ((hlife _).symm.trans hprogram)
    exact ⟨hpath, hargs, (hmade _ _).mpr (Or.inl hexecve)⟩
  · intro status hexited
    rw [hlife] at hexited
    rw [hended hexited]
    exact (h.exited status hexited).imp_left fun hexecve => (hmade _ _).mpr (Or.inl hexecve)
  · intro hwait
    rw [hlife]
    rcases (hmade _ _).mp hwait with hold | ⟨rfl, rfl⟩
    · exact h.waited hold
    · -- `wait` has returned
      have hborn : s.Made .parent .clone :=
        made_at hmakes.calls (h.meets.suffix _) (by decide) (by decide)
      have hdead : (!(s.process .child).life.live) = true := hmakes.ready
      cases hchild : (s.process .child).life with
      | exited status => exact ⟨status, rfl⟩
      | absent => exact absurd hborn (h.absent.mp hchild)
      | running => simp [hchild, Life.live] at hdead
      | program path args => simp [hchild, Life.live] at hdead

theorem clones (h : Inv setup s) (hmakes : Makes setup s t .parent .clone false)
    (hchild : (t.process .child).life = .running)
    (hparent : (t.process .parent).life = (s.process .parent).life) : Inv setup t := by
  have hmade := hmakes.made_iff (h.meets.suffix .parent)
  refine ⟨h.meets.makes hmakes (fun hside => nomatch hside) (by simp), ?_, ?_, ?_, ?_, ?_⟩
  · exact Or.inl (hparent.trans hmakes.running)
  · rw [hchild]
    exact iff_of_false Life.noConfusion (not_not.mpr ((hmade _ _).mpr (Or.inr ⟨rfl, rfl⟩)))
  · intro path args hprogram
    exact nomatch hchild.symm.trans hprogram
  · intro status hexited
    exact nomatch hchild.symm.trans hexited
  · intro hwait
    rw [hmakes.made_iff_of_ne (h.meets.suffix .parent) (by decide)] at hwait
    exact absurd hwait (not_made_at hmakes.calls (h.meets.suffix _) (by decide))

theorem execs (h : Inv setup s) (hmakes : Makes setup s t side .execve false)
    (hlife : (t.process side).life = .program setup.args.programPath setup.args.toCArgs)
    (hothers : ∀ other, other ≠ side → (t.process other).life = (s.process other).life) :
    Inv setup t := by
  have hmade := hmakes.made_iff (h.meets.suffix side)
  have hcloned := h.cloned hmakes.running
  obtain rfl : side = .child := by
    cases side with
    | parent => exact absurd (h.meets.mem_code hmakes) (by decide)
    | child => rfl
  have hsame := hmakes.made_iff_of_ne (h.meets.suffix .child) (x := .clone) (by decide) .parent
  have hcalls := hmakes.others .parent parent_ne_child
  refine ⟨h.meets.makes hmakes hcloned (by simp), ?_, ?_, ?_, ?_, ?_⟩
  · rw [hothers .parent parent_ne_child, hcalls]
    exact h.parent
  · rw [hlife, hsame]
    exact iff_of_false Life.noConfusion (not_not.mpr (hcloned rfl))
  · intro path args hprogram
    obtain ⟨rfl, rfl⟩ := Life.program.inj (hlife.symm.trans hprogram)
    exact ⟨rfl, rfl, (hmade _ _).mpr (Or.inr ⟨rfl, rfl⟩)⟩
  · intro status hexited
    exact nomatch hlife.symm.trans hexited
  · intro hwait
    rw [hmakes.made_iff_of_ne (h.meets.suffix .child) (by decide)] at hwait
    obtain ⟨status, hexited⟩ := h.waited hwait
    exact nomatch hmakes.running.symm.trans hexited

/-- A process ends, and makes no call. -/
theorem parent_ends (h : Inv setup s) {p : Process}
    (hcalls : p.calls = (s.process .parent).calls)
    (hends : p.life = .exited 0 ∧ p.calls = [] ∨
      p.life = .exited 1 ∧ ∃ call ∈ p.calls.head?, Stops .parent call) :
    Inv setup (s.update .parent p) := by
  have hsame := update_calls hcalls
  have hmade := made_congr hsame
  have hchild : (s.update .parent p).process .child = s.process .child :=
    update_other parent_ne_child.symm s p
  refine ⟨h.meets.congr hsame rfl, Or.inr ?_, ?_, ?_, ?_, ?_⟩
  · rw [update_self]
    exact hends
  · simpa only [hchild, hmade] using h.absent
  · simpa only [hchild, hmade] using h.program
  · simpa only [hchild, hmade] using h.exited
  · simpa only [hchild, hmade] using h.waited

theorem child_ends (h : Inv setup s) {p : Process} {status : Nat}
    (hborn : (s.process .child).life ≠ .absent)
    (hcalls : p.calls = (s.process .child).calls) (hends : p.life = .exited status)
    (hreason : s.Made .child .execve ∨
      status = 1 ∧ ∃ call ∈ p.calls.head?, Stops .child call) :
    Inv setup (s.update .child p) := by
  have hsame := update_calls hcalls
  have hmade := made_congr hsame
  have hparent : (s.update .child p).process .parent = s.process .parent :=
    update_other parent_ne_child s p
  refine ⟨h.meets.congr hsame rfl, ?_, ?_, ?_, ?_, ?_⟩
  · simpa only [hparent] using h.parent
  · rw [update_self, hends, hmade]
    exact iff_of_false Life.noConfusion fun hnot => hborn (h.absent.mpr hnot)
  · intro path args hprogram
    rw [update_self, hends] at hprogram
    exact nomatch hprogram
  · intro code hexited
    rw [update_self, hends] at hexited
    obtain rfl := Life.exited.inj hexited
    rw [update_self, hmade]
    exact hreason
  · intro _
    rw [update_self]
    exact ⟨status, hends⟩

theorem step {e : ContainerEvent} (h : Inv setup s) (hstep : s.step setup e = some t) :
    Inv setup t := by
  cases step_move hstep h.meets.suffix with
  | goes hmakes hcall hgoes hlife => exact h.goes hmakes hcall hgoes hlife
  | clones hmakes hchild hparent => exact h.clones hmakes hchild hparent
  | execs hmakes hlife hothers => exact h.execs hmakes hlife hothers
  | @stops side call rest _ hrunning hcalls hfails hopened =>
      have hstops : Stops side call := by
        refine ⟨hfails.1, hfails.2, fun harrive => ?_⟩
        subst harrive
        obtain ⟨hinit, hnot⟩ := h.meets.initialised_at hcalls (h.cloned hrunning)
        exact nomatch (h.meets.opened hinit hnot).symm.trans (hopened rfl)
      cases side with
      | parent =>
          exact h.parent_ends rfl (Or.inr ⟨rfl, call, by simp [hcalls], hstops⟩)
      | child =>
          exact h.child_ends (by simp [hrunning]) rfl rfl
            (Or.inr ⟨rfl, call, by simp [hcalls], hstops⟩)
  | @returns side hrunning hcalls =>
      cases side with
      | parent => exact h.parent_ends rfl (Or.inl ⟨rfl, hcalls⟩)
      | child =>
          refine h.child_ends (by simp [hrunning]) rfl rfl (Or.inl ⟨by decide, ?_⟩)
          rw [hcalls]
          exact List.not_mem_nil
  | ends hprogram =>
      exact h.child_ends (by simp [hprogram]) rfl rfl (Or.inl (h.program _ _ hprogram).2.2)

end Inv

/-- By induction over the events, the invariant holds in every reachable
state. -/
theorem Reachable.inv (h : Reachable setup s) : Inv setup s :=
  Reaches.invariant (Inv setup) (fun _ _ _ hinv hstep => hinv.step hstep) h Inv.create

/-! ## What the program starts with -/

theorem fetchChildArgs_eq {argv : List (List UInt8)} {args : ChildState}
    (h : fetchChildArgs argv = some args) :
    argv[1]? = some args.newHostname ∧ argv[2]? = some args.newFilesystemPath ∧
      argv[3]?.map Sockets.stoi = some (.ok args.maxNProcesses) ∧
      argv[4]? = some args.programPath ∧ args.toCArgs = (argv.drop 4).map some ++ [none] := by
  unfold fetchChildArgs at h
  split at h
  · split at h
    · next hstoi =>
        obtain rfl := Option.some.inj h
        exact ⟨rfl, rfl, congrArg some hstoi, rfl, rfl⟩
    · exact nomatch h
  · exact nomatch h

/-- **The program starts confined.**  In every order of the steps and with every
call that fails, no process arrives at a barrier that is not there; and once the
child is past `execve`, it has the host name, the root, the working directory and
the `/proc` that the arguments say, and the parent has written its number and the
limit of the arguments, or could not write; the group is there while the program
runs, which is the one of the arguments, with these arguments. -/
theorem program_confined {argv : List (List UInt8)}
    (hargs : fetchChildArgs argv = some setup.args) (h : Reachable setup s) :
    (∀ side rest, (s.process side).life = .running →
        (s.process side).calls = .arrive :: rest → s.world.barrier ≠ none) ∧
      (s.Made .child .execve →
        s.world.hostname = argv[1]? ∧ s.world.root = argv[2]? ∧
          s.world.workingDir = some slash ∧ s.world.procMounted = true ∧
          s.world.procs.Holds setup.childPid ∧
          (∃ limit, argv[3]?.map Sockets.stoi = some (.ok limit) ∧ s.world.pidsMax.Holds limit) ∧
          s.world.notifyOnRelease.Holds 1) ∧
      ∀ path args, (s.process .child).life = .program path args →
        s.Made .child .execve ∧ argv[4]? = some path ∧
          args = (argv.drop 4).map some ++ [none] ∧ s.world.cgroupDir = true := by
  have hinv := h.inv
  have hmeets := hinv.meets
  obtain ⟨hhostname, hroot, hlimit, hpath, hcargs⟩ := fetchChildArgs_eq hargs
  -- the child is past the barrier, so the parent has arrived
  have hpast : s.Made .child .execve → s.Made .parent .arrive := fun hexecve =>
    hmeets.released .child .parent (hexecve.before (by decide) (hmeets.suffix _))
  refine ⟨fun side rest hrunning hcalls => ?_, fun hexecve => ?_, fun path args hprogram => ?_⟩
  · obtain ⟨hinit, hnot⟩ := hmeets.initialised_at hcalls (hinv.cloned hrunning)
    rw [hmeets.opened hinit hnot]
    exact Option.some_ne_none _
  · have hchild : ∀ call, Before .child call .execve → Shown setup s.world call := fun _ hbefore =>
      hmeets.shown .child _ (hexecve.before hbefore (hmeets.suffix _))
    have hparent : ∀ call, Before .parent call .arrive → Shown setup s.world call :=
      fun _ hbefore => hmeets.shown .parent _ ((hpast hexecve).before hbefore (hmeets.suffix _))
    refine ⟨?_, ?_, hchild .chdir (by decide), hchild .mount (by decide),
      hparent .writeProcs (by decide), ⟨_, hlimit, ?_⟩,
      hparent .writeNotify (by decide)⟩
    · rw [hhostname]
      exact hchild .sethostname (by decide)
    · rw [hroot]
      exact hchild .chroot (by decide)
    · exact hparent .writePidsMax (by decide)
  · obtain ⟨rfl, rfl, hexecve⟩ := hinv.program path args hprogram
    refine ⟨hexecve, hpath, hcargs, ?_⟩
    refine (hmeets.cgroup ((hpast hexecve).before (by decide) (hmeets.suffix _))).mpr ?_
    intro hrmdir
    -- the group is removed behind `wait`
    obtain ⟨status, hexited⟩ := hinv.waited (hrmdir.before (by decide) (hmeets.suffix _))
    exact nomatch hprogram.symm.trans hexited

/-! ## How it ends -/

end Container

/-- The steps that a process has left, at most. -/
def Process.work (p : Process) : Nat :=
  match p.life with
  | .absent => p.calls.length + 3
  | .running => p.calls.length + 2
  | .program .. => 1
  | .exited _ => 0

theorem Process.work_congr {p q : Process} (hlife : p.life = q.life) (hcalls : p.calls = q.calls) :
    p.work = q.work := by
  unfold Process.work
  rw [hlife, hcalls]

namespace Container

variable {setup : Setup} {s t : Container} {side : Side}

def work (s : Container) : Nat := (s.process .parent).work + (s.process .child).work

theorem work_lt (side : Side) (hless : (t.process side).work < (s.process side).work)
    (hothers : ∀ other, other ≠ side → (t.process other).work ≤ (s.process other).work) :
    t.work < s.work := by
  cases side with
  | parent => exact Nat.add_lt_add_of_lt_of_le hless (hothers .child parent_ne_child.symm)
  | child => exact Nat.add_lt_add_of_le_of_lt (hothers .parent parent_ne_child) hless

/-- A process that ends. -/
theorem work_update {p : Process} (hless : p.work < (s.process side).work) :
    (s.update side p).work < s.work := by
  refine work_lt side ?_ fun other hother => ?_
  · rw [update_self]
    exact hless
  · rw [update_other hother]

/-- Every event leaves less work. -/
theorem work_step {e : ContainerEvent} (h : Inv setup s) (hstep : s.step setup e = some t) :
    t.work < s.work := by
  cases step_move hstep h.meets.suffix with
  | @goes _ side _ _ hmakes _ _ hlife =>
      refine work_lt side ?_ fun other hother => ?_
      · unfold Process.work
        simp [hlife, hmakes.running, hmakes.calls]
      · exact (Process.work_congr (hlife other) (hmakes.others other hother)).le
  | clones hmakes hchild hparent =>
      have hunborn : (s.process .child).life = .absent :=
        h.absent.mpr fun hmade => hmade.2 (hmakes.calls ▸ List.mem_cons_self)
      have hcalls := hmakes.others .child parent_ne_child.symm
      refine work_lt .parent ?_ fun other hother => ?_
      · unfold Process.work
        simp [hparent, hmakes.running, hmakes.calls]
      · cases other with
        | parent => exact absurd rfl hother
        | child =>
            unfold Process.work
            simp [hchild, hunborn, hcalls]
  | @execs _ side hmakes hlife hothers =>
      refine work_lt side ?_ fun other hother => ?_
      · unfold Process.work
        simp [hlife, hmakes.running, hmakes.calls]
      · exact (Process.work_congr (hothers other hother) (hmakes.others other hother)).le
  | stops hrunning => exact work_update (by simp [Process.work, hrunning])
  | returns hrunning => exact work_update (by simp [Process.work, hrunning])
  | ends hprogram => exact work_update (by simp [Process.work, hprogram])

/-- A process that runs and cannot go on waits in a call. -/
theorem waits_of_stuck (h : Inv setup s) (hstuck : ∀ e, s.step setup e = none)
    (hrunning : (s.process side).life = .running) :
    ∃ call rest, (s.process side).calls = call :: rest ∧ s.ready call = false ∧
      (call = .leave ∨ call = .wait ∧ side = .parent) := by
  have hnone := hstuck (.call side .ok)
  simp only [step, hrunning, if_true] at hnone
  cases hcalls : (s.process side).calls with
  | nil => simp [hcalls] at hnone
  | cons call rest =>
      simp only [hcalls, ite_eq_right_iff, reduceCtorEq, imp_false, Bool.not_eq_true] at hnone
      refine ⟨call, rest, rfl, hnone, ?_⟩
      have hmem : call ∈ code side :=
        (h.meets.suffix side).subset (hcalls ▸ List.mem_cons_self)
      cases call with
      | leave => exact Or.inl rfl
      | wait =>
          cases side with
          | parent => exact Or.inr ⟨rfl, rfl⟩
          | child => exact absurd hmem (by decide)
      | _ => exact Bool.noConfusion hnone

/-- Someone has not arrived where a process waits at the barrier. -/
theorem missing_of_not_ready (h : Inv setup s) (hready : s.ready .leave = false) :
    ¬ ∀ other, s.Made other .arrive := by
  intro hall
  have hfew : s.world.barrier.all (nProcsInBarrier ≤ ·) = false := hready
  by_cases hdestroyed : s.Made .parent .barrierDestroy
  · rw [h.meets.closed hdestroyed] at hfew
    exact Bool.noConfusion hfew
  · have hinit : s.Made .parent .barrierInit :=
      (hall .parent).before (by decide) (h.meets.suffix _)
    rw [h.meets.opened hinit hdestroyed, arrived, if_pos (hall .parent), if_pos (hall .child)]
      at hfew
    exact Bool.noConfusion hfew

theorem not_program_of_stuck (hstuck : ∀ e, s.step setup e = none) (path : List UInt8)
    (args : List (Option (List UInt8))) : (s.process .child).life ≠ .program path args := by
  intro hprogram
  have hends := hstuck (.programEnds 0)
  simp [step, hprogram] at hends

theorem eq_cons_of_head {calls : List Call} {call : Call} (h : call ∈ calls.head?) :
    calls = call :: calls.tail :=
  (List.cons_head?_tail h).symm

/-- A child that has ended and has not arrived failed in `setContainerNS`. -/
theorem mem_setContainerNS (h : Inv setup s) {call : Call}
    (hhead : call ∈ (s.process .child).calls.head?) (hstops : Stops .child call)
    (hnot : ¬ s.Made .child .arrive) : call ∈ setContainerNS := by
  have hcalls := eq_cons_of_head hhead
  have hwhere : ∀ c ∈ code .child, c ∈ setContainerNS ∨ c = .arrive ∨ c = .leave ∨
      Before .child .arrive c ∧ .arrive ≠ c := by decide
  have hmem : call ∈ code .child := (h.meets.suffix _).subset (hcalls ▸ List.mem_cons_self)
  rcases hwhere call hmem with hfirst | rfl | rfl | ⟨hbefore, hne⟩
  · exact hfirst
  · exact absurd rfl hstops.2.2
  · exact absurd rfl hstops.1
  · exact absurd (made_at hcalls (h.meets.suffix _) hbefore hne) hnot

/-- A parent that has ended and has not arrived failed in `mkdir`, if there is a
child. -/
theorem eq_mkdir (h : Inv setup s) {call : Call}
    (hhead : call ∈ (s.process .parent).calls.head?) (hstops : Stops .parent call)
    (hnot : ¬ s.Made .parent .arrive) (hcloned : s.Made .parent .clone) : call = .mkdir := by
  have hcalls := eq_cons_of_head hhead
  have hwhere : ∀ c ∈ code .parent, c = .mkdir ∨ c = .arrive ∨
      c ∈ [Call.writeProcs, .writePidsMax, .writeNotify, .leave] ∨ Before .parent c .clone ∨
      Before .parent .arrive c ∧ .arrive ≠ c := by decide
  have hignored : ∀ c ∈ [Call.writeProcs, .writePidsMax, .writeNotify, .leave],
      onFailure .parent c = .ignored := by decide
  have hmem : call ∈ code .parent := (h.meets.suffix _).subset (hcalls ▸ List.mem_cons_self)
  rcases hwhere call hmem with hmkdir | rfl | hwrites | hbefore | ⟨hbefore, hne⟩
  · exact hmkdir
  · exact absurd rfl hstops.2.2
  · exact absurd (hignored call hwrites) hstops.1
  · exact absurd hcloned (not_made_at hcalls (h.meets.suffix _) hbefore)
  · exact absurd (made_at hcalls (h.meets.suffix _) hbefore hne) hnot

/-- A parent that cannot go on waits at the barrier for a child that has failed. -/
theorem parent_waits (h : Inv setup s) (hstuck : ∀ e, s.step setup e = none)
    (hrunning : (s.process .parent).life = .running) :
    (s.process .parent).calls.head? = some .leave ∧ (s.process .child).life = .exited 1 ∧
      ∃ call ∈ setContainerNS, (s.process .child).calls.head? = some call := by
  have hpast : s.Made .child .execve → s.Made .child .arrive := fun hexecve =>
    hexecve.before (by decide) (h.meets.suffix _)
  obtain ⟨call, rest, hcalls, hready, rfl | ⟨rfl, _⟩⟩ := waits_of_stuck h hstuck hrunning
  · have harrived : s.Made .parent .arrive :=
      made_at hcalls (h.meets.suffix _) (by decide) (by decide)
    have hnot : ¬ s.Made .child .arrive := by
      intro hchild
      refine missing_of_not_ready h hready fun other => ?_
      cases other with
      | parent => exact harrived
      | child => exact hchild
    refine ⟨by rw [hcalls]; rfl, ?_⟩
    cases hlife : (s.process .child).life with
    | absent =>
        exact absurd (made_at hcalls (h.meets.suffix _) (by decide) (by decide))
          (h.absent.mp hlife)
    | running =>
        obtain ⟨_, _, hchild, _, rfl | ⟨_, hside⟩⟩ := waits_of_stuck h hstuck hlife
        · exact absurd (made_at hchild (h.meets.suffix _) (by decide) (by decide)) hnot
        · exact nomatch hside
    | program path args => exact absurd hlife (not_program_of_stuck hstuck path args)
    | exited status =>
        rcases h.exited status hlife with hexecve | ⟨rfl, call, hhead, hstops⟩
        · exact absurd (hpast hexecve) hnot
        · exact ⟨rfl, call, mem_setContainerNS h hhead hstops hnot, hhead⟩
  · -- behind the barrier the child can go on
    have hleft : s.Made .parent .leave :=
      made_at hcalls (h.meets.suffix _) (by decide) (by decide)
    have hlive : (!(s.process .child).life.live) = false := hready
    cases hlife : (s.process .child).life with
    | absent => simp [hlife, Life.live] at hlive
    | exited status => simp [hlife, Life.live] at hlive
    | program path args => exact absurd hlife (not_program_of_stuck hstuck path args)
    | running =>
        obtain ⟨_, _, _, hblocked, rfl | ⟨_, hside⟩⟩ := waits_of_stuck h hstuck hlife
        · exact absurd (h.meets.released .parent · hleft) (missing_of_not_ready h hblocked)
        · exact nomatch hside

/-- A child that cannot go on waits at the barrier for a parent that could not
make the group. -/
theorem child_waits (h : Inv setup s) (hstuck : ∀ e, s.step setup e = none)
    (hrunning : (s.process .child).life = .running) :
    (s.process .child).calls.head? = some .leave ∧ (s.process .parent).life = .exited 1 ∧
      (s.process .parent).calls.head? = some .mkdir := by
  obtain ⟨call, rest, hcalls, hready, rfl | ⟨_, hside⟩⟩ := waits_of_stuck h hstuck hrunning
  · have harrived : s.Made .child .arrive :=
      made_at hcalls (h.meets.suffix _) (by decide) (by decide)
    have hnot : ¬ s.Made .parent .arrive := by
      intro hparent
      refine missing_of_not_ready h hready fun other => ?_
      cases other with
      | parent => exact hparent
      | child => exact harrived
    refine ⟨by rw [hcalls]; rfl, ?_⟩
    rcases h.parent with hparent | ⟨_, hempty⟩ | ⟨hexited, call, hhead, hstops⟩
    · exact nomatch hrunning.symm.trans (parent_waits h hstuck hparent).2.1
    · exact absurd ⟨by decide, hempty ▸ List.not_mem_nil⟩ hnot
    · obtain rfl := eq_mkdir h hhead hstops hnot (h.cloned hrunning rfl)
      exact ⟨hexited, hhead⟩
  · exact nomatch hside

/-- A parent that returns 0 has seen the child end and has cleaned up. -/
theorem parent_done (h : Inv setup s) (hdone : (s.process .parent).life = .exited 0) :
    (∃ status, (s.process .child).life = .exited status) ∧ s.Made .child .arrive ∧
      s.world.unmounted = some (setup.args.newFilesystemPath ++ slashProc) ∧
      s.world.cgroupDir = false := by
  have hempty : (s.process .parent).calls = [] := by
    rcases h.parent with hrunning | ⟨_, hempty⟩ | ⟨hexited, _⟩
    · exact nomatch hrunning.symm.trans hdone
    · exact hempty
    · exact nomatch hexited.symm.trans hdone
  have hmade : ∀ call ∈ code .parent, s.Made .parent call := fun call hcall =>
    ⟨hcall, hempty ▸ List.not_mem_nil⟩
  refine ⟨h.waited (hmade _ (by decide)), h.meets.released .parent _ (hmade _ (by decide)),
    h.meets.shown .parent .umount (hmade _ (by decide)), ?_⟩
  have hgroup := h.meets.cgroup (hmade _ (by decide))
  exact Bool.eq_false_iff.mpr fun hthere => hgroup.mp hthere (hmade _ (by decide))

/-- **Building ends, or waits at the barrier.**  No run has more steps than the
calls of the two processes and five.  The parent returns 0 only when the child was
at the barrier and has ended, and then it has unmounted the child's `/proc` and
removed the group.  A run that cannot go on has ended both processes, or it has
left one in `pthread_barrier_wait` for ever: the parent if the child failed in
`setContainerNS`, the child if the parent could not make the group. -/
theorem building_ends {events : List ContainerEvent}
    (h : run (step setup) create events = some t) :
    events.length ≤ main.length + child.length + 5 ∧
      ((t.process .parent).life = .exited 0 →
        (∃ status, (t.process .child).life = .exited status) ∧ t.Made .child .arrive ∧
          t.world.unmounted = some (setup.args.newFilesystemPath ++ slashProc) ∧
          t.world.cgroupDir = false) ∧
      ((∀ e, t.step setup e = none) →
        (∃ status, (t.process .parent).life = .exited status) ∧
            (t.process .child).life.live = false ∨
          (t.process .parent).life = .running ∧ (t.process .parent).calls.head? = some .leave ∧
            (t.process .child).life = .exited 1 ∧
            (∃ call ∈ setContainerNS, (t.process .child).calls.head? = some call) ∨
          (t.process .child).life = .running ∧ (t.process .child).calls.head? = some .leave ∧
            (t.process .parent).life = .exited 1 ∧
            (t.process .parent).calls.head? = some .mkdir) := by
  have hinv : Inv setup t := Reachable.inv ⟨events, h⟩
  refine ⟨?_, parent_done hinv, fun hstuck => ?_⟩
  · have hbound := run_length_le work (fun _ _ _ hs hstep => Inv.step hs hstep)
      (fun _ _ _ hs hstep => work_step hs hstep) Inv.create h
    exact (Nat.le_add_right _ _).trans hbound
  · by_cases hparent : (t.process .parent).life = .running
    · exact Or.inr (Or.inl ⟨hparent, parent_waits hinv hstuck hparent⟩)
    · have hended : ∃ status, (t.process .parent).life = .exited status := by
        rcases hinv.parent with hrunning | ⟨hexited, _⟩ | ⟨hexited, _⟩
        · exact absurd hrunning hparent
        · exact ⟨0, hexited⟩
        · exact ⟨1, hexited⟩
      cases hchild : (t.process .child).life with
      | absent => exact Or.inl ⟨hended, rfl⟩
      | exited status => exact Or.inl ⟨hended, rfl⟩
      | program path args => exact absurd hchild (not_program_of_stuck hstuck path args)
      | running => exact Or.inr (Or.inr ⟨rfl, child_waits hinv hstuck hchild⟩)

/-- `container box /a 5 /b c`: the arguments, and the child as process 77. -/
def boxArgv : List (List UInt8) := [[99], [98, 111, 120], [47, 97], [53], [47, 98], [99]]

def boxSetup : Setup := ⟨⟨[98, 111, 120], [47, 97], 5, [47, 98], [[99]]⟩, 77⟩

/-- The parent up to the barrier, the child up to its program, and both to the end. -/
def boxEvents : List ContainerEvent :=
  List.replicate 9 (.call .parent .ok) ++ List.replicate 8 (.call .child .ok)

theorem program_confined_box : ∃ s, run (step boxSetup) create boxEvents = some s ∧
    (s.process .child).life = .program [47, 98] [some [47, 98], some [99], none] ∧
      s.world.hostname = some [98, 111, 120] ∧ s.world.cgroupDir = true := by
  obtain ⟨s, hrun, hlife⟩ : ∃ s, run (step boxSetup) create boxEvents = some s ∧
      (s.process .child).life = .program [47, 98] [some [47, 98], some [99], none] := ⟨_, rfl, rfl⟩
  have hargs : fetchChildArgs boxArgv = some boxSetup.args := rfl
  have hreachable : Reachable boxSetup s := ⟨boxEvents, hrun⟩
  obtain ⟨_, hstarted, hprogram⟩ := program_confined hargs hreachable
  obtain ⟨hexecve, _, _, hgroup⟩ := hprogram _ _ hlife
  exact ⟨s, hrun, hlife, (hstarted hexecve).1, hgroup⟩

/-- The child cannot change its root, and the parent waits for it. -/
theorem building_ends_box : ∃ s,
    run (step boxSetup) create (List.replicate 9 (.call .parent .ok) ++
        [.call .child .ok, .call .child .error]) = some s ∧
      (s.process .parent).life = .running ∧ (s.process .parent).calls.head? = some .leave := by
  obtain ⟨s, hrun, hparent, hcalls, hchild, hready⟩ : ∃ s,
      run (step boxSetup) create (List.replicate 9 (.call .parent .ok) ++
          [.call .child .ok, .call .child .error]) = some s ∧
        (s.process .parent).life = .running ∧
        (s.process .parent).calls = .leave :: (s.process .parent).calls.tail ∧
        (s.process .child).life = .exited 1 ∧ s.ready .leave = false :=
    ⟨_, rfl, rfl, rfl, rfl, rfl⟩
  have hstuck : ∀ e, s.step boxSetup e = none := by
    intro e
    cases e with
    | call side reply =>
        cases side with
        | parent =>
            simp only [step, hparent, if_true]
            rw [hcalls]
            simp [hready]
        | child => simp [step, hchild]
    | programEnds status => simp [step, hchild]
  obtain ⟨_, _, hends⟩ := building_ends hrun
  rcases hends hstuck with ⟨⟨status, hended⟩, _⟩ | hwaits | ⟨hrunning, _⟩
  · exact Life.noConfusion (hparent.symm.trans hended)
  · exact ⟨s, hrun, hwaits.1, hwaits.2.1⟩
  · exact Life.noConfusion (hchild.symm.trans hrunning)

end Container

end Containers
