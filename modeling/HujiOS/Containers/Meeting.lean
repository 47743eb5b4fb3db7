import HujiOS.Containers.Builder

/-!
# The meeting at the barrier

Where the two processes can be at the same time, and what the calls that were
made have left in the world.  All of it follows from the calls that a process has
come past: every call that goes on adds one of them.
-/

namespace Containers

namespace Container

variable {setup : Setup} {s t : Container} {side : Side} {call : Call}

/-! ## The invariant -/

/-- What is seen of a call that was made. -/
def Shown (setup : Setup) (world : World) : Call → Prop
  | .writeProcs => world.procs.Holds setup.childPid
  | .writePidsMax => world.pidsMax.Holds setup.args.maxNProcesses
  | .writeNotify => world.notifyOnRelease.Holds 1
  | .sethostname => world.hostname = some setup.args.newHostname
  | .chroot => world.root = some setup.args.newFilesystemPath
  | .chdir => world.workingDir = some slash
  | .mount => world.procMounted = true
  | .umount => world.unmounted = some (setup.args.newFilesystemPath ++ slashProc)
  | _ => True

theorem ite_keeps {α : Type} {c : Prop} [Decidable c] {a b : α} (h : b = a) :
    (if c then a else b) = a := by
  rw [h, ite_self]

/-- What is seen stays. -/
theorem Shown.keeps {world : World} {seen : Call} (h : Shown setup world seen) (failed : Bool)
    (call : Call) : Shown setup (effect setup failed call world) seen := by
  cases seen with
  | writeProcs => exact h.written
  | writePidsMax => exact h.written
  | writeNotify => exact h.written
  | sethostname => exact ite_keeps h
  | chroot => exact ite_keeps h
  | chdir => exact ite_keeps h
  | mount => exact ite_keeps h
  | umount => exact ite_keeps h
  | _ => trivial

/-- A call that is made is seen from then on. -/
theorem shown_effect {failed : Bool} (world : World)
    (hgoes : failed = true → ∀ text, onFailure side call ≠ .panic text) :
    Shown setup (effect setup failed call world) call := by
  cases failed with
  | false => cases call <;> first | exact Or.inr rfl | rfl | trivial
  | true =>
      have hnot := hgoes rfl
      cases call <;> first | exact Or.inl rfl | trivial | exact absurd rfl (hnot _)

/-- How many have come past the first half of the barrier. -/
def arrived (s : Container) : Nat :=
  (if s.Made .parent .arrive then 1 else 0) + (if s.Made .child .arrive then 1 else 0)

/-- Where the two processes are and what they have left in the world. -/
structure Meets (setup : Setup) (s : Container) : Prop where
  suffix : ∀ side, (s.process side).calls <:+ code side
  born : ∀ call, s.Made .child call → s.Made .parent .clone
  released : ∀ side other, s.Made side .leave → s.Made other .arrive
  opened : s.Made .parent .barrierInit → ¬ s.Made .parent .barrierDestroy →
    s.world.barrier = some s.arrived
  closed : s.Made .parent .barrierDestroy → s.world.barrier = none
  cgroup : s.Made .parent .mkdir → (s.world.cgroupDir = true ↔ ¬ s.Made .parent .rmdir)
  shown : ∀ side call, s.Made side call → Shown setup s.world call

theorem Meets.create : Meets setup create where
  suffix := fun side => by
    cases side with
    | parent => exact List.suffix_refl _
    | child => exact List.suffix_refl _
  born := fun call hmade => absurd hmade.1 hmade.2
  released := fun side other hmade => by
    cases side with
    | parent => exact absurd hmade.1 hmade.2
    | child => exact absurd hmade.1 hmade.2
  opened := fun hmade => absurd hmade.1 hmade.2
  closed := fun hmade => absurd hmade.1 hmade.2
  cgroup := fun hmade => absurd hmade.1 hmade.2
  shown := fun side call hmade => by
    cases side with
    | parent => exact absurd hmade.1 hmade.2
    | child => exact absurd hmade.1 hmade.2

theorem made_congr (hcalls : ∀ side, (t.process side).calls = (s.process side).calls)
    (side : Side) (call : Call) : t.Made side call ↔ s.Made side call := by
  unfold Made
  rw [hcalls]

theorem Meets.congr (h : Meets setup s)
    (hcalls : ∀ side, (t.process side).calls = (s.process side).calls)
    (hworld : t.world = s.world) : Meets setup t := by
  have hmade := made_congr hcalls
  have harrived : t.arrived = s.arrived := by simp only [arrived, hmade]
  refine ⟨fun side => hcalls side ▸ h.suffix side, ?_, ?_, ?_, ?_, ?_, ?_⟩
  · simpa only [hmade] using h.born
  · simpa only [hmade] using h.released
  · simpa only [hmade, hworld, harrived] using h.opened
  · simpa only [hmade, hworld] using h.closed
  · simpa only [hmade, hworld] using h.cgroup
  · simpa only [hmade, hworld] using h.shown

theorem Makes.made_iff {failed : Bool} (h : Makes setup s t side call failed)
    (hsuffix : (s.process side).calls <:+ code side) (other : Side) (x : Call) :
    t.Made other x ↔ s.Made other x ∨ other = side ∧ x = call := by
  by_cases hother : other = side
  · subst hother
    rw [h.calls] at hsuffix
    have hmem : call ∈ code other := hsuffix.subset List.mem_cons_self
    have hfresh := (List.nodup_cons.mp ((nodup_code other).sublist hsuffix.sublist)).1
    unfold Made
    rw [h.calls, List.mem_cons]
    constructor
    · intro hmade
      by_cases hx : x = call
      · exact Or.inr ⟨rfl, hx⟩
      · exact Or.inl ⟨hmade.1, fun hold => hold.elim hx hmade.2⟩
    · intro hmade
      rcases hmade with hmade | ⟨_, rfl⟩
      · exact ⟨hmade.1, fun hrest => hmade.2 (Or.inr hrest)⟩
      · exact ⟨hmem, hfresh⟩
  · unfold Made
    rw [h.others other hother]
    exact ⟨Or.inl, fun hmade => hmade.resolve_right fun hsame => hother hsame.1⟩

theorem Makes.made_iff_of_ne {failed : Bool} (h : Makes setup s t side call failed)
    (hsuffix : (s.process side).calls <:+ code side) {x : Call} (hne : x ≠ call) (other : Side) :
    t.Made other x ↔ s.Made other x := by
  rw [h.made_iff hsuffix]
  exact or_iff_left fun hsame => hne hsame.2

theorem effect_barrier {failed : Bool} (world : World)
    (hother : call ≠ .barrierInit ∧ call ≠ .arrive ∧ call ≠ .barrierDestroy) :
    (effect setup failed call world).barrier = world.barrier := by
  cases failed with
  | true => rfl
  | false => cases call <;> first | rfl | simp at hother

theorem effect_cgroupDir {failed : Bool} (world : World)
    (hother : call ≠ .mkdir ∧ call ≠ .rmdir) :
    (effect setup failed call world).cgroupDir = world.cgroupDir := by
  cases failed with
  | true => rfl
  | false => cases call <;> first | rfl | simp at hother

theorem arrived_of_two_le (h : 2 ≤ s.arrived) (side : Side) : s.Made side .arrive := by
  by_contra hnot
  unfold arrived at h
  cases side with
  | parent =>
      rw [if_neg hnot] at h
      split at h <;> omega
  | child =>
      rw [if_neg hnot] at h
      split at h <;> omega

namespace Meets

/-- The barrier is there for whoever arrives. -/
theorem initialised_at {rest : List Call} (h : Meets setup s)
    (hcalls : (s.process side).calls = .arrive :: rest)
    (hcloned : side = .child → s.Made .parent .clone) :
    s.Made .parent .barrierInit ∧ ¬ s.Made .parent .barrierDestroy := by
  cases side with
  | parent =>
      exact ⟨made_at hcalls (h.suffix _) (by decide) (by decide),
        not_made_at hcalls (h.suffix _) (by decide)⟩
  | child =>
      refine ⟨(hcloned rfl).before (by decide) (h.suffix _), fun hdestroyed => ?_⟩
      have hleft : s.Made .parent .leave := hdestroyed.before (by decide) (h.suffix _)
      refine (h.released .parent .child hleft).2 ?_
      rw [hcalls]
      exact List.mem_cons_self

/-- Whoever leaves the barrier leaves two that have arrived. -/
theorem released_at {rest : List Call} (h : Meets setup s)
    (hcalls : (s.process side).calls = .leave :: rest) (hready : s.ready .leave = true)
    (hcloned : side = .child → s.Made .parent .clone) (other : Side) : s.Made other .arrive := by
  by_cases hdestroyed : s.Made .parent .barrierDestroy
  · exact h.released .parent other (hdestroyed.before (by decide) (h.suffix _))
  · have hinit : s.Made .parent .barrierInit := by
      cases side with
      | parent => exact made_at hcalls (h.suffix _) (by decide) (by decide)
      | child => exact (hcloned rfl).before (by decide) (h.suffix _)
    have htwo : s.world.barrier.all (nProcsInBarrier ≤ ·) = true := hready
    rw [h.opened hinit hdestroyed] at htwo
    exact arrived_of_two_le (of_decide_eq_true htwo) other

/-- One more comes past the first half of the barrier. -/
theorem arrived_makes {failed : Bool} (h : Meets setup s)
    (hmakes : Makes setup s t side .arrive failed) :
    t.arrived = s.arrived + 1 := by
  have hmade := hmakes.made_iff (h.suffix side)
  have hnot : ¬ s.Made side .arrive := fun hold => hold.2 (hmakes.calls ▸ List.mem_cons_self)
  unfold arrived
  cases side with
  | parent => simp [hmade, hnot, Nat.add_comm]
  | child => simp [hmade, hnot]

section

variable {failed : Bool} (h : Meets setup s) (hmakes : Makes setup s t side call failed)
  (hcloned : side = .child → s.Made .parent .clone)
  (hgoes : failed = true → ∀ text, onFailure side call ≠ .panic text)

include h hmakes

/-- A process makes only calls of its code. -/
theorem mem_code : call ∈ code side :=
  (h.suffix side).subset (hmakes.calls ▸ List.mem_cons_self)

/-- Only the parent makes these calls. -/
theorem side_eq_parent (hcall : call ∉ code .child) : side = .parent := by
  cases side with
  | parent => rfl
  | child => exact absurd (h.mem_code hmakes) hcall

include hgoes

omit h hmakes in
/-- A call whose failure ends the process has not failed. -/
theorem not_failed {text : String} (hpanics : onFailure side call = .panic text) :
    failed = false :=
  Bool.eq_false_iff.mpr fun hfailed => hgoes hfailed text hpanics

theorem makes_cgroup (hmkdir : t.Made .parent .mkdir) :
    t.world.cgroupDir = true ↔ ¬ t.Made .parent .rmdir := by
  have hmade := hmakes.made_iff (h.suffix side)
  rw [hmakes.world]
  by_cases hcall : call = .mkdir
  · subst hcall
    obtain rfl := h.side_eq_parent hmakes (by decide)
    obtain rfl := not_failed hgoes rfl
    refine iff_of_true rfl ?_
    rw [hmade]
    exact not_or.mpr ⟨not_made_at hmakes.calls (h.suffix _) (by decide), by simp⟩
  · by_cases hrmdir : call = .rmdir
    · subst hrmdir
      obtain rfl := h.side_eq_parent hmakes (by decide)
      obtain rfl := not_failed hgoes rfl
      exact iff_of_false (Bool.false_ne_true) (not_not.mpr ((hmade _ _).mpr (Or.inr ⟨rfl, rfl⟩)))
    · have hold := ((hmade _ _).mp hmkdir).resolve_right fun hsame => hcall hsame.2.symm
      rw [effect_cgroupDir _ ⟨hcall, hrmdir⟩, h.cgroup hold, hmade]
      exact not_congr (iff_self_or.mpr fun hsame => absurd hsame.2.symm hrmdir)

include hcloned

theorem makes_opened (hinit : t.Made .parent .barrierInit)
    (hnot : ¬ t.Made .parent .barrierDestroy) : t.world.barrier = some t.arrived := by
  have hmade := hmakes.made_iff (h.suffix side)
  rw [hmakes.world]
  by_cases harrive : call = .arrive
  · -- one more has arrived
    subst harrive
    obtain ⟨hold, hnotOld⟩ := h.initialised_at hmakes.calls hcloned
    have hbarrier := h.opened hold hnotOld
    obtain rfl : failed = false := by
      rw [hmakes.opened rfl, hbarrier]
      rfl
    rw [h.arrived_makes hmakes]
    show s.world.barrier.map (· + 1) = _
    rw [hbarrier]
    rfl
  · have harrived : t.arrived = s.arrived := by
      simp only [arrived, hmakes.made_iff_of_ne (h.suffix side) (Ne.symm harrive)]
    rw [harrived]
    by_cases hcall : call = .barrierInit
    · -- no one has arrived yet
      subst hcall
      obtain rfl := h.side_eq_parent hmakes (by decide)
      obtain rfl := not_failed hgoes rfl
      have hunborn : ¬ s.Made .parent .clone := not_made_at hmakes.calls (h.suffix _) (by decide)
      unfold arrived
      rw [if_neg (not_made_at hmakes.calls (h.suffix _) (by decide)),
        if_neg (mt (h.born .arrive) hunborn)]
      rfl
    · have hdestroy : call ≠ .barrierDestroy := by
        intro hdestroy
        obtain rfl := h.side_eq_parent hmakes (hdestroy ▸ by decide)
        exact hnot ((hmade _ _).mpr (Or.inr ⟨rfl, hdestroy.symm⟩))
      rw [effect_barrier _ ⟨hcall, harrive, hdestroy⟩]
      rw [hmakes.made_iff_of_ne (h.suffix side) (Ne.symm hcall)] at hinit
      rw [hmakes.made_iff_of_ne (h.suffix side) (Ne.symm hdestroy)] at hnot
      exact h.opened hinit hnot

omit hcloned in
theorem makes_closed (hdestroyed : t.Made .parent .barrierDestroy) : t.world.barrier = none := by
  rw [hmakes.world]
  rcases (hmakes.made_iff (h.suffix side) _ _).mp hdestroyed with hold | ⟨rfl, rfl⟩
  · have hnone := h.closed hold
    by_cases harrive : call = .arrive
    · subst harrive
      obtain rfl : failed = true := by
        rw [hmakes.opened rfl, hnone]
        rfl
      exact hnone
    · have hinit : call ≠ .barrierInit := by
        intro hinit
        obtain rfl := h.side_eq_parent hmakes (hinit ▸ by decide)
        exact not_made_at hmakes.calls (h.suffix _) (hinit ▸ by decide) hold
      have hdestroy : call ≠ .barrierDestroy := by
        intro hdestroy
        obtain rfl := h.side_eq_parent hmakes (hdestroy ▸ by decide)
        exact hold.2 (hmakes.calls ▸ hdestroy ▸ List.mem_cons_self)
      rw [effect_barrier _ ⟨hinit, harrive, hdestroy⟩]
      exact hnone
  · obtain rfl := not_failed hgoes rfl
    rfl

/-- **A call that is made.** -/
theorem makes : Meets setup t := by
  have hmade := hmakes.made_iff (h.suffix side)
  refine ⟨fun other => ?_, fun x hx => ?_, fun one other hleft => ?_,
    h.makes_opened hmakes hcloned hgoes, h.makes_closed hmakes hgoes,
    h.makes_cgroup hmakes hgoes, fun other x hx => ?_⟩
  · by_cases hother : other = side
    · rw [hother]
      exact ((List.suffix_cons call _).trans (hmakes.calls ▸ List.suffix_refl _)).trans
        (h.suffix side)
    · rw [hmakes.others other hother]
      exact h.suffix other
  · refine (hmade _ _).mpr (Or.inl ?_)
    rcases (hmade _ _).mp hx with hold | ⟨hside, _⟩
    · exact h.born x hold
    · exact hcloned hside.symm
  · refine (hmade _ _).mpr (Or.inl ?_)
    rcases (hmade _ _).mp hleft with hold | ⟨_, rfl⟩
    · exact h.released one other hold
    · exact h.released_at hmakes.calls hmakes.ready hcloned other
  · rw [hmakes.world]
    rcases (hmade _ _).mp hx with hold | ⟨_, rfl⟩
    · exact (h.shown other x hold).keeps failed call
    · exact shown_effect s.world hgoes

end

end Meets

end Container

end Containers
