import Mathlib.Data.Option.Basic
import Mathlib.Order.Basic
import Mathlib.Order.WellFounded

/-!
# Runs of a partial step function

A system is a function `step : σ → α → Option σ`: in state `s` the action `a`
is either not enabled (`none`) or leads to one next state.  All
nondeterminism (which call is made, which thread is scheduled) is in the list
of actions, so a run is a fold that stops at the first action that is not
enabled.

The rules below are the only inductions over runs that the developments on top
need: splitting a run at an append, carrying an invariant, carrying a
preorder, transporting a run along a simulation in which every step of one
system is a step of the other or is invisible to it, the same with what is
seen of the steps and in the other direction, and reaching a goal by steps that
lower a measure.
-/

namespace Runs

universe u v w x

variable {σ : Type u} {α : Type v} {τ : Type w}

/-- Execute a list of actions from a state. -/
def run (step : σ → α → Option σ) : σ → List α → Option σ
  | s, [] => some s
  | s, a :: rest => (step s a).bind fun m => run step m rest

variable {step : σ → α → Option σ}

@[simp] theorem run_nil (s : σ) : run step s [] = some s := rfl

@[simp] theorem run_cons (s : σ) (a : α) (rest : List α) :
    run step s (a :: rest) = (step s a).bind fun m => run step m rest := rfl

/-- The first action of a run is enabled and leads to a state from which the
rest of the run continues. -/
theorem run_cons_some {s t : σ} {a : α} {rest : List α}
    (h : run step s (a :: rest) = some t) :
    ∃ m, step s a = some m ∧ run step m rest = some t :=
  Option.bind_eq_some_iff.mp h

/-- A run over two lists is the second run from where the first ends. -/
theorem run_append (s : σ) (left right : List α) :
    run step s (left ++ right) = (run step s left).bind fun m => run step m right := by
  induction left generalizing s with
  | nil => rfl
  | cons a rest ih =>
      cases hstep : step s a with
      | none => simp [hstep]
      | some m => simpa [hstep] using ih m

/-- Split a run at an append, exposing the state in between. -/
theorem run_split {s t : σ} {left right : List α}
    (h : run step s (left ++ right) = some t) :
    ∃ m, run step s left = some m ∧ run step m right = some t := by
  rw [run_append] at h
  exact Option.bind_eq_some_iff.mp h

/-- Two runs that meet make one. -/
theorem run_join {s m t : σ} {left right : List α}
    (hleft : run step s left = some m) (hright : run step m right = some t) :
    run step s (left ++ right) = some t := by
  rw [run_append, hleft]
  exact hright

/-- A run of one step. -/
theorem run_singleton {s t : σ} {a : α} (h : step s a = some t) :
    run step s [a] = some t := by
  simp [h]

/-- One more step at the end of a run. -/
theorem run_snoc {s m t : σ} {acts : List α} {a : α}
    (hrun : run step s acts = some m) (hstep : step m a = some t) :
    run step s (acts ++ [a]) = some t :=
  run_join hrun (run_singleton hstep)

/-- Some run leads from `s` to `t`. -/
def Reaches (step : σ → α → Option σ) (s t : σ) : Prop :=
  ∃ acts, run step s acts = some t

/-- Every state reaches itself, by the empty run. -/
theorem Reaches.refl (s : σ) : Reaches step s s := ⟨[], rfl⟩

/-- What a state reaches can be left by one more step. -/
theorem Reaches.snoc {s m t : σ} {a : α} (h : Reaches step s m)
    (hstep : step m a = some t) : Reaches step s t := by
  obtain ⟨acts, hrun⟩ := h
  exact ⟨acts ++ [a], run_snoc hrun hstep⟩

/-- **Invariant rule.**  What every enabled step whose action satisfies `ok`
preserves holds at the end of every run of such actions. -/
theorem run_invariant (Inv : σ → Prop) (ok : α → Prop)
    (hstep : ∀ s a t, ok a → Inv s → step s a = some t → Inv t)
    {s t : σ} {acts : List α} (hok : ∀ a ∈ acts, ok a)
    (hs : Inv s) (hrun : run step s acts = some t) : Inv t := by
  induction acts generalizing s with
  | nil =>
      have heq : s = t := Option.some.inj hrun
      exact heq ▸ hs
  | cons a rest ih =>
      obtain ⟨m, hm, hrest⟩ := run_cons_some hrun
      exact ih (fun b hb => hok b (List.mem_cons_of_mem a hb))
        (hstep s a m (hok a List.mem_cons_self) hs hm) hrest

/-- The invariant rule for reachability, with no condition on the actions. -/
theorem Reaches.invariant (Inv : σ → Prop)
    (hstep : ∀ s a t, Inv s → step s a = some t → Inv t)
    {s t : σ} (h : Reaches step s t) (hs : Inv s) : Inv t := by
  obtain ⟨acts, hrun⟩ := h
  exact run_invariant Inv (fun _ => True) (fun s a t _ => hstep s a t)
    (fun _ _ => trivial) hs hrun

/-- **Infinite runs.**  An action that an invariant enables, and that keeps it, can
be taken for ever. -/
theorem exists_infinite_run (a : α) (Inv : σ → Prop)
    (hstep : ∀ s, Inv s → ∃ t, step s a = some t ∧ Inv t) {s : σ} (hs : Inv s) :
    ∃ states : Nat → σ, states 0 = s ∧ ∀ i, step (states i) a = some (states (i + 1)) := by
  choose next hnext hkeeps using hstep
  let states : Nat → { s // Inv s } := fun i =>
    Nat.rec ⟨s, hs⟩ (fun _ m => ⟨next m.1 m.2, hkeeps m.1 m.2⟩) i
  exact ⟨fun i => (states i).1, rfl, fun i => hnext (states i).1 (states i).2⟩

/-- **Monotonicity rule.**  A measure into a preorder that no step decreases
(from states satisfying an invariant) is not decreased by a run. -/
theorem Reaches.monotone {β : Type x} [Preorder β] {Inv : σ → Prop} (f : σ → β)
    (hinv : ∀ s a t, Inv s → step s a = some t → Inv t)
    (hstep : ∀ s a t, Inv s → step s a = some t → f s ≤ f t)
    {s t : σ} (h : Reaches step s t) (hs : Inv s) : f s ≤ f t := by
  have hboth : Inv t ∧ f s ≤ f t :=
    h.invariant (fun x => Inv x ∧ f s ≤ f x)
      (fun x a y hx hxy => ⟨hinv x a y hx.1 hxy, hx.2.trans (hstep x a y hx.1 hxy)⟩)
      ⟨hs, le_refl _⟩
  exact hboth.2

/-- **Simulation rule.**  When every step of the first system is, through
`abs`, a step of the second or leaves the abstract state alone, reachability
is transported along `abs`. -/
theorem Reaches.simulate {β : Type x} {astep : τ → β → Option τ} (abs : σ → τ)
    {Inv : σ → Prop}
    (hinv : ∀ s a t, Inv s → step s a = some t → Inv t)
    (hsim : ∀ s a t, Inv s → step s a = some t →
      abs t = abs s ∨ ∃ b, astep (abs s) b = some (abs t))
    {s t : σ} (h : Reaches step s t) (hs : Inv s) :
    Reaches astep (abs s) (abs t) := by
  have hboth : Inv t ∧ Reaches astep (abs s) (abs t) :=
    h.invariant (fun x => Inv x ∧ Reaches astep (abs s) (abs x))
      (by
        intro x a y hx hxy
        refine ⟨hinv x a y hx.1 hxy, ?_⟩
        rcases hsim x a y hx.1 hxy with heq | ⟨b, hb⟩
        · rw [heq]; exact hx.2
        · exact hx.2.snoc hb)
      ⟨hs, Reaches.refl _⟩
  exact hboth.2

/-- What an observer of single steps sees of a run: `vis s a t` of the step `a`
from `s` to `t`. -/
def observed {β : Type x} (step : σ → α → Option σ) (vis : σ → α → σ → List β) :
    σ → List α → List β
  | _, [] => []
  | s, a :: rest => (step s a).elim [] fun m => vis s a m ++ observed step vis m rest

@[simp] theorem observed_nil {β : Type x} (vis : σ → α → σ → List β) (s : σ) :
    observed step vis s [] = [] := rfl

/-- What a run shows is what its first step shows, then the rest. -/
theorem observed_cons {β : Type x} {vis : σ → α → σ → List β} {s m : σ} {a : α} {rest : List α}
    (hstep : step s a = some m) :
    observed step vis s (a :: rest) = vis s a m ++ observed step vis m rest := by
  simp only [observed, hstep, Option.elim_some]

/-- **Boundedness rule.**  When every step that keeps an invariant lowers a
number, a run is no longer than that number. -/
theorem run_length_le {Inv : σ → Prop} (f : σ → Nat)
    (hinv : ∀ s a t, Inv s → step s a = some t → Inv t)
    (hstep : ∀ s a t, Inv s → step s a = some t → f t < f s)
    {s t : σ} {acts : List α} (hs : Inv s) (hrun : run step s acts = some t) :
    acts.length + f t ≤ f s := by
  induction acts generalizing s with
  | nil =>
      obtain rfl := Option.some.inj hrun
      rw [List.length_nil, Nat.zero_add]
  | cons a rest ih =>
      obtain ⟨m, hm, hrest⟩ := run_cons_some hrun
      have hmore := ih (hinv s a m hs hm) hrest
      have hless := hstep s a m hs hm
      rw [List.length_cons]
      omega

/-- **Progress rule.**  When in every state that satisfies an invariant and is
not a goal some action that satisfies `ok` is enabled and lowers a well-founded
measure, a run of such actions leads to a goal. -/
theorem exists_run_of_measure {β : Type x} [Preorder β] [WellFoundedLT β] (Inv Goal : σ → Prop)
    (ok : α → Prop) (f : σ → β)
    (hstep : ∀ s, Inv s → ¬ Goal s → ∃ a t, ok a ∧ step s a = some t ∧ Inv t ∧ f t < f s)
    {s : σ} (hs : Inv s) :
    ∃ acts t, (∀ a ∈ acts, ok a) ∧ run step s acts = some t ∧ Inv t ∧ Goal t := by
  induction hf : f s using WellFoundedLT.induction generalizing s with
  | ind _ ih =>
      subst hf
      by_cases hgoal : Goal s
      · exact ⟨[], s, by simp, rfl, hs, hgoal⟩
      · obtain ⟨a, m, hok, hm, hinv, hlt⟩ := hstep s hs hgoal
        obtain ⟨acts, t, hoks, hrun, ht, htGoal⟩ := ih _ hlt hinv rfl
        refine ⟨a :: acts, t, ?_, by simp [hm, hrun], ht, htGoal⟩
        exact List.forall_mem_cons.mpr ⟨hok, hoks⟩

end Runs
