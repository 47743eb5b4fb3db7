import HujiOS.Paging.WorkingSet

/-!
# The page moves do not depend on the data

What `createFrame` does is decided by the tables: the empty table is the only one,
the fresh frame is the next one, and the page to evict is the first of the farthest.
So two runs that access the same pages move the same pages between the same frames,
whatever the words and the offsets are, whether they read or write, and whatever
the swap file holds.
-/

namespace Paging

open Loops MachineInt PointerTree Runs

/-- The tables hold the same frames. -/
def SameTables (c : MemoryConstants) (m m' : PhysicalMemory) : Prop :=
  ∀ p, p.length ≤ c.tablesDepth → frameAt c m' p = frameAt c m p

/-- From `n` to `m` and from `n'` to `m'` the same pages were moved. -/
def SameMoves (n n' m m' : PhysicalMemory) : Prop :=
  ∃ moves, m.trace = n.trace ++ moves ∧ m'.trace = n'.trace ++ moves

variable {c : MemoryConstants} {n n' m m' k k' : PhysicalMemory}
  {top₀ top₀' top top' last last' page depth f g g' q x : Nat} {p r : List Nat}

theorem SameMoves.refl (m m' : PhysicalMemory) : SameMoves m m' m m' :=
  ⟨[], (List.append_nil _).symm, (List.append_nil _).symm⟩

theorem SameMoves.trans (h : SameMoves n n' m m') (h' : SameMoves m m' k k') :
    SameMoves n n' k k' := by
  obtain ⟨moves, hm, hm'⟩ := h
  obtain ⟨more, hk, hk'⟩ := h'
  exact ⟨moves ++ more, by rw [hk, hm, List.append_assoc], by rw [hk', hm', List.append_assoc]⟩

/-! ## What the tables decide -/

/-- The largest frame in use. -/
theorem SameTables.top_eq (hsame : SameTables c m m') (h : Forest c m none top)
    (h' : Forest c m' none top') : top = top' := by
  have hiff : ∀ x, x ≤ top ↔ x ≤ top' := by
    intro x
    have hx := h.frames x
    have hx' := h'.frames x
    simp only [ne_eq, reduceCtorEq, not_false_eq_true, and_true] at hx hx'
    rw [← hx, ← hx']
    constructor
    · intro hmapped
      obtain ⟨p, hp, hw⟩ := hmapped
      exact ⟨p, hp, (hsame p hp).trans hw⟩
    · intro hmapped
      obtain ⟨p, hp, hw⟩ := hmapped
      exact ⟨p, hp, (hsame p hp).symm.trans hw⟩
  exact le_antisymm ((hiff top).mp le_rfl) ((hiff top').mpr le_rfl)

/-- An entry is empty in both memories or in neither. -/
theorem SameTables.row_zero (hsame : SameTables c m m') (hp : p.length < c.tablesDepth)
    (hf : frameAt c m p = some f) {i : Nat} (hi : i < c.pageSize) :
    m'.ram f i = 0 ↔ m.ram f i = 0 := by
  have hnext := hsame (p ++ [i]) (by simpa [Nat.succ_le_iff] using hp)
  rw [frameAt_snoc hf, frameAt_snoc ((hsame p hp.le).trans hf)] at hnext
  rw [← entry_eq_none_iff hi, ← entry_eq_none_iff hi, hnext]

theorem SameTables.unusedTable (hsame : SameTables c m m') (hp : p.length < c.tablesDepth)
    (hg : frameAt c m p = some g) : UnusedTable c m' f g ↔ UnusedTable c m f g := by
  unfold UnusedTable
  constructor
  · intro hunused
    exact ⟨fun i hi => (hsame.row_zero hp hg hi).mp (hunused.1 i hi), hunused.2⟩
  · intro hunused
    exact ⟨fun i hi => (hsame.row_zero hp hg hi).mpr (hunused.1 i hi), hunused.2⟩

theorem SameTables.noUnusedTable (hsame : SameTables c m m') :
    NoUnusedTable c m' f ↔ NoUnusedTable c m f := by
  constructor
  · intro hnone p g hp hg hunused
    exact hnone p g hp ((hsame p hp.le).trans hg) ((hsame.unusedTable hp hg).mpr hunused)
  · intro hnone p g hp hg hunused
    have hold := (hsame p hp.le).symm.trans hg
    exact hnone p g hp hold ((hsame.unusedTable hp hold).mp hunused)

theorem SameTables.frameOf_eq (hsame : SameTables c m m') (q : Nat) :
    frameOf c m' q = frameOf c m q :=
  hsame (pagePath c q) (length_pagePath c q).le

/-- There is one page to choose. -/
theorem Farthest.unique {q' : Nat} (h : Farthest c m page q) (h' : Farthest c m page q') :
    q = q' := by
  have hdist := le_antisymm (h'.farthest q h.resident) (h.farthest q' h'.resident)
  exact le_antisymm (h.least q' h'.resident hdist.symm) (h'.least q h.resident hdist)

theorem SameTables.farthest (hsame : SameTables c m m') (h : Farthest c m' page q) :
    Farthest c m page q := by
  have hres : ∀ r, Resident c m r ↔ Resident c m' r := by
    intro r
    unfold Resident
    rw [hsame.frameOf_eq r]
  exact ⟨(hres q).mpr h.resident, fun r hr => h.farthest r ((hres r).mp hr),
    fun r hr => h.least r ((hres r).mp hr)⟩

/-! ## One fault -/

/-- With no table to reuse and no frame left the farthest page makes room. -/
theorem createFrame_evicts (h : Forest c m none top) (hpage : page < c.numPages)
    (habsent : frameOf c m page = none) (hr : r.length < c.tablesDepth)
    (hf : frameAt c m r = some f) (hnone : NoUnusedTable c m f) (hfull : top + 1 = c.numFrames)
    (hcreate : createFrame c m page f depth = .ok ((g : Int), m')) :
    ∃ q, Farthest c m page q ∧ frameOf c m q = some g := by
  obtain ⟨p, x, i, y, hlen, hx, hy, _, hfar, _, hevict⟩ := evictFrame_spec h.toPageTree
    hpage habsent (exists_resident h hfull hnone hr hf)
  have hylen : (p ++ [i]).length = c.tablesDepth := by simpa using hlen
  refine ⟨_, hfar, ?_⟩
  obtain ⟨found, hsearch, hmax,
      ⟨hzero, _⟩ | ⟨p', x', i', g', hlen', _, _, hg', hpos, hunused, _⟩⟩ :=
    getUnusedOrMaxFrame_spec h f
  · have hge : ¬ (top : Int) < c.numFrames - 1 := by omega
    unfold createFrame createUnusedOrMaxFrame at hcreate
    simp only [hsearch, bind, Except.bind, hzero, ne_eq, not_true_eq_false, if_false, hmax, hge,
      hevict] at hcreate
    split at hcreate
    · cases hcreate
    · have hframe : (y : Int) = g := congrArg Prod.fst (Except.ok.inj hcreate)
      obtain rfl : y = g := by exact_mod_cast hframe
      exact frameOf_pathPage hylen hy
  · exact absurd (hnone _ g' (by simpa using hlen') hg' hunused) hpos

/-- **Cutting off** the same frame without children. -/
theorem SameTables.unlink (hsame : SameTables c m m') (h : Forest c m none top)
    (h' : Forest c m' none top') {i : Nat} (hp : p.length < c.tablesDepth)
    (hx : frameAt c m p = some x) (hg : frameAt c m (p ++ [i]) = some g)
    (hbare : Forest.Childless c m (p ++ [i]) g) (hbare' : Forest.Childless c m' (p ++ [i]) g) :
    SameTables c (m.store x i 0) (m'.store x i 0) := by
  have hlen : (p ++ [i]).length ≤ c.tablesDepth := by simpa [Nat.succ_le_iff] using hp
  intro q hq
  rw [Forest.frameAt_unlink h hx hp hg hbare hq, Forest.frameAt_unlink h'
    ((hsame p hp.le).trans hx) hp ((hsame _ hlen).trans hg) hbare' hq, hsame q hq]

/-- **One allocation.**  From the same tables the same frame is taken from the same
place. -/
theorem Allocates.same (hsame : SameTables c m m') (h : Forest c m none top)
    (h' : Forest c m' none top) (hone : (emptyTables c m f).Subsingleton)
    (hfarthest : NoUnusedTable c m f → top + 1 = c.numFrames →
      ∃ q, Farthest c m page q ∧ frameOf c m q = some g)
    (hfarthest' : NoUnusedTable c m f → top + 1 = c.numFrames →
      ∃ q, Farthest c m page q ∧ frameOf c m q = some g')
    (halloc : Allocates c m f depth top g last k)
    (halloc' : Allocates c m' f depth top g' last' k') :
    g = g' ∧ SameTables c k k' ∧ SameMoves m m' k k' := by
  -- the frame that is cut off is the same, so it is cut off at the same place
  have hplace : ∀ {p p' : List Nat} {x x' i i' y : Nat}, p.length < c.tablesDepth →
      p'.length < c.tablesDepth → frameAt c m p = some x → frameAt c m (p ++ [i]) = some y →
      frameAt c m' p' = some x' → frameAt c m' (p' ++ [i']) = some y →
      p = p' ∧ x = x' ∧ i = i' := by
    intro p p' x x' i i' y hp hp' hx hy hx' hy'
    have hlen : (p ++ [i]).length ≤ c.tablesDepth := by simpa [Nat.succ_le_iff] using hp
    have hlen' : (p' ++ [i']).length ≤ c.tablesDepth := by simpa [Nat.succ_le_iff] using hp'
    have hpath := h.path_unique hlen hlen' hy ((hsame _ hlen').symm.trans hy')
    obtain ⟨rfl, hrow⟩ := List.append_inj' hpath rfl
    refine ⟨rfl, ?_, by simpa using hrow⟩
    exact Option.some.inj (hx.symm.trans ((hsame p hp.le).symm.trans hx'))
  cases halloc with
  | @reuse p x i _ hlen hx hg hpos hunused =>
      cases halloc' with
      | @reuse p' x' i' _ hlen' hx' hg' hpos' hunused' =>
          have hp := Nat.lt_of_succ_lt hlen
          have hp' := Nat.lt_of_succ_lt hlen'
          have hglen : (p ++ [i]).length < c.tablesDepth := by simpa using hlen
          have hglen' : (p' ++ [i']).length < c.tablesDepth := by simpa using hlen'
          have hold := (hsame _ hglen'.le).symm.trans hg'
          have hmem : g ∈ emptyTables c m f :=
            (mem_emptyTables_iff h.toPageTree).mpr ⟨_, hglen, hg, hunused, hpos⟩
          have hmem' : g' ∈ emptyTables c m f := (mem_emptyTables_iff h.toPageTree).mpr
            ⟨_, hglen', hold, (hsame.unusedTable hglen' hold).mp hunused', hpos'⟩
          obtain rfl := hone hmem hmem'
          obtain ⟨rfl, rfl, rfl⟩ := hplace hp hp' hx hg hx' hg'
          exact ⟨rfl, hsame.unlink h h' hp hx hg (fun _ => hunused.1) fun _ => hunused'.1,
            [], (List.append_nil _).symm, (List.append_nil _).symm⟩
      | fresh hnone _ =>
          exact absurd (hsame.noUnusedTable.mp hnone _ g (by simpa using hlen) hg hunused) hpos
      | evict hnone =>
          exact absurd (hsame.noUnusedTable.mp hnone _ g (by simpa using hlen) hg hunused) hpos
  | fresh hnone hroom =>
      cases halloc' with
      | reuse hlen' _ hg' hpos' hunused' =>
          exact absurd (hsame.noUnusedTable.mpr hnone _ g' (by simpa using hlen') hg' hunused')
            hpos'
      | fresh => exact ⟨rfl, hsame, SameMoves.refl m m'⟩
      | evict _ hfull => omega
  | @evict p x i _ hnone hfull hlen hx hg hpos =>
      cases halloc' with
      | reuse hlen' _ hg' hpos' hunused' =>
          exact absurd (hsame.noUnusedTable.mpr hnone _ g' (by simpa using hlen') hg' hunused')
            hpos'
      | fresh _ hroom => omega
      | @evict p' x' i' _ _ _ hlen' hx' hg' _ =>
          obtain ⟨q, hq, hqg⟩ := hfarthest hnone hfull
          obtain ⟨q', hq', hqg'⟩ := hfarthest' hnone hfull
          obtain rfl := hq.unique hq'
          obtain rfl := Option.some.inj (hqg.symm.trans hqg')
          obtain ⟨rfl, rfl, rfl⟩ := hplace (by omega) (by omega) hx hg hx' hg'
          refine ⟨rfl, fun q hq => ?_, [.evict g (pathPage c (p ++ [i]))],
            m.evicted_trace c depth x i g _, m'.evicted_trace c depth x i g _⟩
          rw [(evicted_forest h hlen hx hg depth).2 q hq,
            (evicted_forest h' hlen' hx' hg' depth).2 q hq, hsame q hq]

/-! ## A whole translation -/

/-- **One round** of the loop. -/
theorem findFrameStep_same (hpage : page < c.numPages) (hdepth : depth < c.tablesDepth)
    (h : Translating c n top₀ page depth f m top) (h' : Translating c n' top₀' page depth f m' top')
    (hsame : SameTables c m m') (hone : (emptyTables c m f).Subsingleton) :
    ∃ g k k' last last', findFrameStep c page ((f : Int), m) depth = .ok (((g : Nat) : Int), k) ∧
      findFrameStep c page ((f : Int), m') depth = .ok ((g : Int), k') ∧
      Translating c n top₀ page (depth + 1) g k last ∧
      Translating c n' top₀' page (depth + 1) g k' last' ∧
      SameTables c k k' ∧ SameMoves m m' k k' := by
  obtain rfl := hsame.top_eq h.forest h'.forest
  have hrlen := length_take_pagePath (c := c) page hdepth.le
  have hr : ((pagePath c page).take depth).length < c.tablesDepth := by omega
  have hi : fetchDepthOffset c page depth < c.pageSize := fetchOffset_lt c _
  have hread := pmRead_row m (h.forest.frameAt_lt hr.le h.walked) hi
  have hread' := pmRead_row m' (h'.forest.frameAt_lt hr.le h'.walked) hi
  unfold findFrameStep
  rcases h.forest.row_cases hr h.walked hi with ⟨hzero, _⟩ | ⟨g, hg, _, hram, hsome⟩
  · have hzero' := (hsame.row_zero hr h.walked hi).mpr hzero
    obtain ⟨g, last, k, hcreate, halloc, hall, habsent⟩ := h.createFrame_spec hpage hdepth hzero
    obtain ⟨g', last', k', hcreate', halloc', hall', habsent'⟩ :=
      h'.createFrame_spec hpage hdepth hzero'
    obtain ⟨rfl, htables, hmoves⟩ := halloc.same hsame h.forest h'.forest hone
      (fun hnone hfull => createFrame_evicts h.forest hpage habsent hr h.walked hnone hfull hcreate)
      (fun hnone hfull => by
        obtain ⟨q, hfar, hq⟩ := createFrame_evicts h'.forest hpage habsent' hr h'.walked
          (hsame.noUnusedTable.mpr hnone) hfull hcreate'
        exact ⟨q, hsame.farthest hfar, (hsame.frameOf_eq q).symm.trans hq⟩)
      halloc'
    have hkept := hall.path.trans h.walked
    have hkept' := hall'.path.trans h'.walked
    refine ⟨g, _, _, last, last', ?_, ?_, h.linked hpage hdepth hzero habsent hall halloc.top_le,
      h'.linked hpage hdepth hzero' habsent' hall' halloc'.top_le, fun q hq => ?_, hmoves⟩
    · simp only [hread, bind, Except.bind, hzero, if_true, hcreate,
        pmWrite_entry hall.forest hr.le hkept hi]
    · simp only [hread', bind, Except.bind, hzero', if_true, hcreate',
        pmWrite_entry hall'.forest hr.le hkept' hi]
    · rw [Forest.frameAt_link hall.forest hkept hr hi (hall.row f _ h.walked hzero)
        (hall.childless _) hq, Forest.frameAt_link hall'.forest hkept' hr hi
        (hall'.row f _ h'.walked hzero') (hall'.childless _) hq, htables q hq]
  · have hwalked := take_succ_pagePath c page hdepth
    have hstep : frameAt c m ((pagePath c page).take (depth + 1)) = some g := by
      rw [hwalked, frameAt_snoc h.walked, hsome]
    have hstep' := (hsame _ ((length_take_pagePath page hdepth).trans_le hdepth)).trans hstep
    have hentry' : entry c m' f (fetchDepthOffset c page depth) = some g := by
      rw [← frameAt_snoc h'.walked, ← hwalked]
      exact hstep'
    have hram' := (h'.forest.ram_of_entry hr h'.walked hentry').1
    exact ⟨g, m, m', top, top, by simp [hread, bind, Except.bind, hram, hg],
      by simp [hread', bind, Except.bind, hram', hg],
      ⟨h.forest, h.top_le, hstep, h.others, h.swapped, h.swap_page, h.hit, h.moves⟩,
      ⟨h'.forest, h'.top_le, hstep', h'.others, h'.swapped, h'.swap_page, h'.hit, h'.moves⟩,
      hsame, SameMoves.refl m m'⟩

/-- **The loop** of `findFrame`, cut off at any depth. -/
theorem walk_same (h : Inv c n top₀) (h' : Inv c n' top₀') (hsame : SameTables c n n')
    (hone : (emptyTables c n 0).Subsingleton) (hpage : page < c.numPages)
    (hdepth : depth ≤ c.tablesDepth) : ∃ f m m' top top',
      (List.range depth).foldlM (findFrameStep c page) (0, n) = .ok (((f : Nat) : Int), m) ∧
      (List.range depth).foldlM (findFrameStep c page) (0, n') = .ok ((f : Int), m') ∧
      Translating c n top₀ page depth f m top ∧ Translating c n' top₀' page depth f m' top' ∧
      SameTables c m m' ∧ SameMoves n n' m m' := by
  induction depth with
  | zero =>
      refine ⟨0, n, n', top₀, top₀', rfl, rfl,
        ⟨h.toForest, le_rfl, frameAt_nil c n, fun _ _ _ => rfl,
          fun q hq _ hres => h.swapped q hq hres, rfl, fun _ => rfl, .of_trace_eq rfl⟩,
        ⟨h'.toForest, le_rfl, frameAt_nil c n', fun _ _ _ => rfl,
          fun q hq _ hres => h'.swapped q hq hres, rfl, fun _ => rfl, .of_trace_eq rfl⟩,
        hsame, SameMoves.refl n n'⟩
  | succ depth ih =>
      obtain ⟨f, m, m', top, top', hloop, hloop', htrans, htrans', htables, hmoves⟩ :=
        ih (Nat.le_of_succ_le hdepth)
      have hleft := h.walk_emptyTables hone hpage (Nat.le_of_succ_le hdepth) hloop
      obtain ⟨g, k, k', last, last', hstep, hstep', hnext, hnext', hlinked, hmore⟩ :=
        findFrameStep_same hpage hdepth htrans htrans' htables hleft
      exact ⟨g, k, k', last, last', foldlM_range_succ hloop hstep,
        foldlM_range_succ hloop' hstep', hnext, hnext', hlinked, hmoves.trans hmore⟩

/-- Loading the content of the page touches no table. -/
theorem Translating.restored_tables (h : Translating c n top₀ page c.tablesDepth f m top)
    (hp : p.length ≤ c.tablesDepth) : frameAt c (m.restored f page) p = frameAt c m p := by
  apply Forest.frameAt_congr _ hp
  intro q x i hq hx _
  rw [m.restored_ram f page
    (h.forest.leaf_ne_table (length_pagePath c page) h.frame hq hx).symm]

/-- **A translation.** -/
theorem findFrame_same (h : Inv c m top) (h' : Inv c m' top') (hsame : SameTables c m m')
    (hone : (emptyTables c m 0).Subsingleton) (hpage : page < c.numPages) :
    ∃ f k k' last last', findFrame c m page = .ok (f, k) ∧ findFrame c m' page = .ok (f, k') ∧
      Translated c m top page f k last ∧ Translated c m' top' page f k' last' ∧
      SameTables c k k' ∧ SameMoves m m' k k' := by
  obtain ⟨f, k, k', last, last', hloop, hloop', hend, hend', htables, hmoves⟩ :=
    walk_same h h' hsame hone hpage le_rfl
  have hflt := hend.forest.frameAt_lt (length_pagePath c page).le hend.frame
  refine ⟨f, k.restored f page, k'.restored f page, last, last', ?_, ?_, hend.restored h hpage,
    hend'.restored h' hpage, fun p hp => ?_, hmoves.trans
      ⟨[.restore f page], k.restored_trace f page, k'.restored_trace f page⟩⟩
  · unfold findFrame
    simp only [hloop, bind, Except.bind, toUInt64_frame hflt, pmRestore_ok hflt]
  · unfold findFrame
    simp only [hloop', bind, Except.bind, toUInt64_frame hflt, pmRestore_ok hflt]
  · rw [hend.restored_tables hp, hend'.restored_tables hp, htables p hp]

/-! ## Whole runs -/

/-- The same tables, and what holds between calls. -/
structure Twins (c : MemoryConstants) (m m' : PhysicalMemory) : Prop where
  left : ∃ top, Inv c m top
  right : ∃ top, Inv c m' top
  one : (emptyTables c m 0).Subsingleton
  tables : SameTables c m m'

/-- **Step lemma.**  Two calls that access one page keep the tables the same. -/
theorem Twins.next (h : Twins c m m') {access access' : Access}
    (hrange : access.virtualAddress < c.virtualMemorySize)
    (hrange' : access'.virtualAddress < c.virtualMemorySize)
    (hpage : fetchPageAddress c access.virtualAddress = fetchPageAddress c access'.virtualAddress)
    (hnext : next c m access = some k) (hnext' : next c m' access' = some k') :
    Twins c k k' ∧ SameMoves m m' k k' := by
  obtain ⟨top, hleft⟩ := h.left
  obtain ⟨top', hright⟩ := h.right
  obtain ⟨f, x, x', last, last', hfind, hfind', hdone, hdone', htables, moves, hmoves, hmoves'⟩ :=
    findFrame_same hleft hright h.tables h.one (fetchPageAddress_lt c hrange)
  rw [hpage] at hfind' hdone'
  obtain ⟨hinv, htrace, hmaps⟩ := next_translated hrange hfind hdone hnext
  obtain ⟨hinv', htrace', hmaps'⟩ := next_translated hrange' hfind' hdone' hnext'
  refine ⟨⟨⟨last, hinv⟩, ⟨last', hinv'⟩, next_emptyTables hleft h.one hnext, fun p hp => ?_⟩,
    moves, htrace.trans hmoves, htrace'.trans hmoves'⟩
  rw [hmaps p hp, hmaps' p hp, htables p hp]

/-- A call out of range changes nothing. -/
theorem next_out_of_range {access : Access}
    (hout : ¬ access.virtualAddress < c.virtualMemorySize) : next c m access = some m := by
  cases access with
  | read a value =>
      simp only [Access.virtualAddress, not_lt] at hout
      simp [next, vmRead, hout, Except.toOption]
  | write a value =>
      simp only [Access.virtualAddress, not_lt] at hout
      simp [next, vmWrite, hout, Except.toOption]

/-- The calls in range. -/
def callsInRange (c : Widths) (accesses : List Access) : List Access :=
  accesses.filter fun access => access.virtualAddress < c.virtualMemorySize

theorem run_callsInRange {accesses : List Access} (hrun : run (Paging.next c) m accesses = some k) :
    run (Paging.next c) m (callsInRange c accesses) = some k := by
  induction accesses generalizing m with
  | nil => exact hrun
  | cons access rest ih =>
      obtain ⟨x, hnext, hrest⟩ := run_cons_some hrun
      by_cases hrange : access.virtualAddress < c.virtualMemorySize
      · have hkeep : callsInRange c (access :: rest) = access :: callsInRange c rest := by
          simp [callsInRange, hrange]
        rw [hkeep, run_cons, hnext]
        exact ih hrest
      · have hdrop : callsInRange c (access :: rest) = callsInRange c rest := by
          simp [callsInRange, hrange]
        obtain rfl : m = x := Option.some.inj ((next_out_of_range hrange).symm.trans hnext)
        rw [hdrop]
        exact ih hrest

/-- **Run lemma**, for calls in range. -/
theorem Twins.run (h : Twins c m m') {accesses accesses' : List Access}
    (hrange : ∀ access ∈ accesses, access.virtualAddress < c.virtualMemorySize)
    (hrange' : ∀ access ∈ accesses', access.virtualAddress < c.virtualMemorySize)
    (hpages : accesses.map (fun access => fetchPageAddress c access.virtualAddress) =
      accesses'.map fun access => fetchPageAddress c access.virtualAddress)
    (hrun : run (Paging.next c) m accesses = some k)
    (hrun' : Runs.run (Paging.next c) m' accesses' = some k') :
    SameTables c k k' ∧ SameMoves m m' k k' := by
  induction accesses generalizing accesses' m m' with
  | nil =>
      obtain rfl : accesses' = [] := List.map_eq_nil_iff.mp hpages.symm
      obtain rfl : m = k := Option.some.inj hrun
      obtain rfl : m' = k' := Option.some.inj hrun'
      exact ⟨h.tables, SameMoves.refl m m'⟩
  | cons access rest ih =>
      cases accesses' with
      | nil => cases hpages
      | cons access' rest' =>
          obtain ⟨hpage, hpages⟩ := List.cons.inj hpages
          obtain ⟨x, hnext, hrest⟩ := run_cons_some hrun
          obtain ⟨x', hnext', hrest'⟩ := run_cons_some hrun'
          obtain ⟨htwins, hmoves⟩ := h.next (hrange _ List.mem_cons_self)
            (hrange' _ List.mem_cons_self) hpage hnext hnext'
          obtain ⟨htables, hmore⟩ := ih htwins
            (fun y hy => hrange y (List.mem_cons_of_mem _ hy))
            (fun y hy => hrange' y (List.mem_cons_of_mem _ hy)) hpages hrest hrest'
          exact ⟨htables, hmoves.trans hmore⟩

/-- **Page moves do not depend on data.**  From memories with the same tables, calls
that access the same pages in the same order move the same pages between the same
frames, and leave the same tables: what is read and written, and where in a page, does
not matter, nor do the calls out of range or what the swap file held. -/
theorem moves_data_independent (c : MemoryConstants) {m m' k k' : PhysicalMemory}
    {accesses accesses' : List Access} (h : Reachable c m) (h' : Reachable c m')
    (hsame : ∀ p, p.length ≤ c.tablesDepth → frameAt c m' p = frameAt c m p)
    (hpages : accessedPages c accesses = accessedPages c accesses')
    (hrun : run (Paging.next c) m accesses = some k)
    (hrun' : run (Paging.next c) m' accesses' = some k') :
    (∀ p, p.length ≤ c.tablesDepth → frameAt c k' p = frameAt c k p) ∧
      ∃ moves, k.trace = m.trace ++ moves ∧ k'.trace = m'.trace ++ moves := by
  have htwins : Twins c m m' := ⟨h.inv, h'.inv, h.emptyTables, hsame⟩
  exact htwins.run (fun y hy => of_decide_eq_true (List.mem_filter.mp hy).2)
    (fun y hy => of_decide_eq_true (List.mem_filter.mp hy).2) hpages (run_callsInRange hrun)
    (run_callsInRange hrun')

/-- Two writes evict as two reads of other words of the pages do, between which there
is a call out of range. -/
theorem moves_data_independent_small : ∃ k k', run (Paging.next smallMemory) (.filled 0)
      [.write 15 7, .write 19 8] = some k ∧
    run (Paging.next smallMemory) (.filled 0) [.read 14 0, .read 32 0, .read 18 0] = some k' ∧
    k.ram ≠ k'.ram ∧ k.trace = k'.trace := by
  have hinit := vmInitialize_zeros smallMemory 5
  have hreach : Reachable smallMemory (.filled 0) := ⟨_, _, hinit, Reaches.refl _⟩
  obtain ⟨k, hrun, hwritten⟩ := (Option.any_eq_true _ _).mp (show
    ((run (Paging.next smallMemory) (.filled 0) [.write 15 7, .write 19 8]).any fun k =>
      decide (k.ram 4 1 = 8)) = true by decide +kernel)
  obtain ⟨k', hrun', hzero⟩ := (Option.any_eq_true _ _).mp (show
    ((run (Paging.next smallMemory) (.filled 0) [.read 14 0, .read 32 0, .read 18 0]).any fun k =>
      decide (k.ram 4 1 = 0)) = true by decide +kernel)
  obtain ⟨_, moves, hmoves, hmoves'⟩ := moves_data_independent smallMemory hreach hreach
    (fun _ _ => rfl) (by decide +kernel) hrun hrun'
  refine ⟨k, k', hrun, hrun', fun heq => ?_, hmoves.trans hmoves'.symm⟩
  have hword := of_decide_eq_true hwritten
  rw [heq, of_decide_eq_true hzero] at hword
  cases hword

end Paging
