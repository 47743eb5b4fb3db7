import HujiOS.Sockets.Server
import Mathlib.Data.List.Infix

/-!
# What the server runs and when

Over every run of the server's loop: every connection is served at most once,
with the string that was read from it, while clients that are accepted wait as
long as others keep connecting and a descriptor is free for them.  The descriptors
that `select` watches are the ones that the server holds, and they stay below
`FD_SETSIZE` exactly if the server never holds too many clients.
-/

namespace Sockets

open Runs

/-! ## Every command once -/

/-- The client sends a command that is not empty and fits, and closes; it has an
address, and the reads get on. -/
structure Peer.Sends (peer : Peer) (command : List UInt8) : Prop where
  stream : peer.stream = command
  noNul : 0 ∉ command
  length_le : command.length ≤ 255
  nonempty : command ≠ []
  hasName : peer.hasName = true
  reads : ∃ counts : List Nat, peer.reads = counts.map some ∧ (∀ n ∈ counts, 0 < n) ∧
    command.length < counts.length

theorem Host.handle_sends {host : Host} {connection : Nat} {command : List UInt8}
    (h : (host.peers connection).Sends command) :
    host.outcome connection = .returned ∧ host.command connection = command := by
  obtain ⟨counts, hreads, hpos, hmore⟩ := h.reads
  have hshort : command.length < maxBuf := Nat.lt_succ_of_le h.length_le
  obtain ⟨memory, hhandle, hbytes, hended⟩ :=
    handleClient_received hshort hpos hmore (host.peers connection).cmdToRun
  have hzero : memory command.length = 0 := by
    rw [hended, if_neg (mt List.length_eq_zero_iff.mp h.nonempty)]
  have hresult : host.handle connection = (.returned, memory, cString maxBuf memory) := by
    unfold Host.handle
    simp only [h.hasName, if_true, h.stream, hreads]
    exact hhandle
  unfold Host.outcome Host.command
  rw [hresult]
  exact ⟨rfl, cString_eq ⟨hbytes, hzero⟩ h.noNul hshort⟩

/-- Serving a connection that can be read ends, or hangs in the shell. -/
theorem Host.serve_of_outcome {host : Host} {connection : Nat}
    (h : host.outcome connection = .returned) :
    host.serve connection = if (host.peers connection).ends then .running
      else .inShell connection (host.command connection) := by
  unfold Host.serve
  rw [h]

theorem Host.serve_eq_running {host : Host} {connection : Nat}
    (h : host.outcome connection = .returned) (hends : (host.peers connection).ends = true) :
    host.serve connection = .running := by
  rw [Host.serve_of_outcome h, if_pos hends]

namespace Server

variable {host : Host} {s t : Server}

/-- The loop is never kept by what keeps no connection. -/
theorem Reachable.status_ne (h : Reachable host s) {status : Status} (hgoes : ¬ Goes status)
    (hpanics : status ≠ .panicked) (hoverruns : status ≠ .overrun)
    (hserve : ∀ n, host.serve n ≠ status) : s.status ≠ status := by
  have hrunning : status ≠ .running := fun heq => hgoes (Or.inl heq)
  refine Reaches.invariant (fun s : Server => s.status ≠ status) ?_ h hrunning.symm
  intro a e b ha hstep
  cases step_move hstep with
  | connect => exact ha
  | overruns => exact hoverruns.symm
  | panics => exact hpanics.symm
  | accepts _ _ hstatus => exact fun heq => hgoes (heq ▸ hstatus)
  | @serves ready _ _ _ _ _ _ hstatus =>
      intro heq
      dsimp only at heq
      rcases hstatus with ⟨_, hgo⟩ | ⟨hstays, hsame⟩
      · exact hgoes (heq ▸ hgo)
      · rcases serveSelected_status host ready a.clientSockets with hend | ⟨client, _, hclient⟩
        · exact hstays (Or.inl hend)
        · exact hserve client.connection (hclient.symm.trans (hsame.symm.trans heq))

/-- Where every client can be read the server is never blocked. -/
theorem Reachable.not_blocked (h : Reachable host s)
    (hread : ∀ n, host.outcome n = .returned) : s.status ≠ .blocked := by
  refine h.status_ne (by simp [Goes]) Status.noConfusion Status.noConfusion fun n => ?_
  rw [Host.serve_of_outcome (hread n)]
  split
  · exact Status.noConfusion
  · exact Status.noConfusion

/-- Where every client is served nothing is left in the shell. -/
theorem Reachable.given_eq (h : Reachable host s) (hserve : ∀ n, host.serve n = .running) :
    s.given = s.executed := by
  unfold given
  split
  · next connection command hstatus =>
      have hnot : s.status ≠ .inShell connection command :=
        h.status_ne (by simp [Goes]) Status.noConfusion Status.noConfusion
          (fun n heq => Status.noConfusion ((hserve n).symm.trans heq))
      exact absurd hstatus hnot
  · exact List.append_nil _

/-- A round that finds no connection waiting and all clients ready serves whoever has
connected. -/
theorem round_serves_all {ready : Finset Nat} {input : List UInt8} {accepts : Bool}
    (h : Reachable host s) (hserve : ∀ n, host.serve n = .running)
    (hstep : step host s (.round (some ready) input accepts) = some t) (hfits : s.Fits host)
    (hbacklog : s.backlog = []) (hready : ∀ client ∈ s.clientSockets, client.fd ∈ ready) :
    t.executed.Perm ((List.range t.arrived).map fun n => (n, host.command n)) := by
  have ht : Inv host t := h.inv.step hstep
  have hleft : t.clientSockets = [] ∧ t.backlog = [] := by
    cases step_move hstep with
    | overruns hnot => exact absurd hfits hnot
    | panics hfails =>
        rcases hfails with hnone | ⟨hwaits, _⟩
        · cases hnone
        · exact absurd hbacklog hwaits
    | accepts hcons => exact absurd (hcons.symm.trans hbacklog) (List.cons_ne_nil _ _)
    | serves =>
        have hend : (serveSelected host ready s.clientSockets).1 = .running := by
          rcases serveSelected_status host ready s.clientSockets with hend | ⟨client, _, heq⟩
          · exact hend
          · exact heq.trans (hserve client.connection)
        obtain ⟨hkept, _⟩ := serveSelected_returned hend
        refine ⟨hkept.trans ?_, hbacklog⟩
        rw [List.filter_eq_nil_iff]
        intro client hmem
        simpa using hready client hmem
  have hserved := ht.conserved
  rw [hleft.1, hleft.2, List.map_nil, List.append_nil, List.append_nil] at hserved
  have hperm := hserved.map fun n => (n, host.command n)
  have hsame : t.executed.map (fun e => (e.1, host.command e.1)) = t.executed := by
    conv_rhs => rw [← List.map_id t.executed]
    apply List.map_congr_left
    intro e he
    exact Prod.ext rfl (ht.ran e he).2.symm
  rw [List.map_map] at hperm
  exact hsame ▸ hperm

/-- Two clients that send `ls`; the descriptors 0 to 3 are open. -/
def lsHost : Host where
  serverFd := 3
  openFds := {0, 1, 2, 3}
  fdLimit := 1024
  stdin_mem := by decide
  server_mem := by decide
  peers := fun _ => ⟨[108, 115], [some 1, some 4, some 1], fun _ => 0, true, true⟩

def lsEvents : List ServerEvent :=
  [.connect, .round (some {3}) [] true, .connect, .round (some {3, 4}) [] true,
    .round (some {4, 5}) [] true]

end Server

/-- One turn of the loop. -/
def ServerEvent.isRound : ServerEvent → Bool
  | .connect => false
  | .round .. => true

namespace Server

variable {host : Host} {s t : Server}

/-- The turns of the loop among some events. -/
def rounds (events : List ServerEvent) : Nat := events.countP ServerEvent.isRound

@[simp] theorem rounds_connect (events : List ServerEvent) :
    rounds (.connect :: events) = rounds events := rfl

@[simp] theorem rounds_round (selected : Option (Finset Nat)) (input : List UInt8)
    (accepts : Bool) (events : List ServerEvent) :
    rounds (.round selected input accepts :: events) = rounds events + 1 :=
  List.countP_cons_of_pos rfl

/-- With so many connections waiting before, one waits in every round. -/
def Crowded : Nat → List ServerEvent → Prop
  | _, [] => True
  | waiting, .connect :: events => Crowded (waiting + 1) events
  | waiting, .round .. :: events => 0 < waiting ∧ Crowded (waiting - 1) events

/-- A server that has left the loop serves no one. -/
theorem run_left {events : List ServerEvent} (h : run (step host) s events = some t)
    (hs : s.status ≠ .running) :
    t.status = s.status ∧ t.executed = s.executed ∧ t.clientSockets = s.clientSockets := by
  induction events generalizing s with
  | nil =>
      obtain rfl := Option.some.inj h
      exact ⟨rfl, rfl, rfl⟩
  | cons e rest ih =>
      obtain ⟨m, hstep, hrest⟩ := run_cons_some h
      cases e with
      | connect =>
          obtain rfl := Option.some.inj hstep
          have hleft := ih hrest hs
          exact hleft
      | round => exact absurd (Option.ite_none_right_eq_some.mp hstep).1 hs

/-- While a connection waits in every round the clients are only joined by
others. -/
theorem run_crowded {events : List ServerEvent} (h : run (step host) s events = some t)
    (hcrowded : Crowded s.backlog.length events) :
    t.executed = s.executed ∧ s.clientSockets <+: t.clientSockets ∧
      (t.status = .running →
        t.clientSockets.length = s.clientSockets.length + rounds events) := by
  induction events generalizing s with
  | nil =>
      obtain rfl := Option.some.inj h
      exact ⟨rfl, List.prefix_refl _, fun _ => rfl⟩
  | cons e rest ih =>
      obtain ⟨m, hstep, hrest⟩ := run_cons_some h
      cases step_move hstep with
      | connect =>
          have hmore : Crowded s.connect.backlog.length rest := by
            dsimp only [connect]
            rw [List.length_append]
            exact hcrowded
          have hjoined := ih hrest hmore
          exact hjoined
      | overruns =>
          obtain ⟨hstatus, hexecuted, hclients⟩ := run_left hrest Status.noConfusion
          refine ⟨hexecuted, hclients ▸ List.prefix_refl _, fun hrunning => ?_⟩
          exact absurd (hstatus.symm.trans hrunning) Status.noConfusion
      | panics =>
          obtain ⟨hstatus, hexecuted, hclients⟩ := run_left hrest Status.noConfusion
          refine ⟨hexecuted, hclients ▸ List.prefix_refl _, fun hrunning => ?_⟩
          exact absurd (hstatus.symm.trans hrunning) Status.noConfusion
      | accepts hbacklog =>
          have hfewer : Crowded (s.backlog.length - 1) rest := hcrowded.2
          rw [hbacklog] at hfewer
          obtain ⟨hexecuted, hclients, hcount⟩ := ih hrest hfewer
          refine ⟨hexecuted, (List.prefix_append _ _).trans hclients, fun hrunning => ?_⟩
          rw [hcount hrunning, List.length_append, rounds_round]
          exact Nat.add_right_comm _ _ _
      | serves _ hbacklog =>
          exact absurd hcrowded.1 (hbacklog ▸ Nat.lt_irrefl 0)

/-! ## What `select` watches -/

theorem mem_foldl_insert (clients : List ClientSocket) (fds : Finset Nat) (fd : Nat) :
    fd ∈ clients.foldl (fun fds client => insert client.fd fds) fds ↔
      fd ∈ fds ∨ fd ∈ clients.map ClientSocket.fd := by
  induction clients generalizing fds with
  | nil => simp
  | cons client rest ih =>
      rw [List.foldl_cons, ih, Finset.mem_insert, List.map_cons, List.mem_cons]
      tauto

theorem foldl_max_le_iff (clients : List ClientSocket) (nfds bound : Nat) :
    clients.foldl (fun nfds client => max nfds (client.fd + 1)) nfds ≤ bound ↔
      nfds ≤ bound ∧ ∀ fd ∈ clients.map ClientSocket.fd, fd < bound := by
  induction clients generalizing nfds with
  | nil => simp
  | cons client rest ih =>
      rw [List.foldl_cons, ih, max_le_iff, List.map_cons, List.forall_mem_cons, and_assoc]
      rfl

/-- What is watched is standard input, the listening socket and the
clients. -/
theorem mem_readfdSet {fd : Nat} : fd ∈ (s.updateSelectParams host).readfdSet ↔
    fd = 0 ∨ fd = host.serverFd ∨ fd ∈ s.clientSockets.map ClientSocket.fd := by
  unfold updateSelectParams
  rw [mem_foldl_insert, Finset.mem_insert, Finset.mem_singleton, or_assoc]

/-- `nfds` is one more than the largest descriptor watched. -/
theorem nfds_le_iff {bound : Nat} : (s.updateSelectParams host).nfds ≤ bound ↔
    ∀ fd ∈ (s.updateSelectParams host).readfdSet, fd < bound := by
  have hnfds : (s.updateSelectParams host).nfds ≤ bound ↔ max host.serverFd 0 + 1 ≤ bound ∧
      ∀ fd ∈ s.clientSockets.map ClientSocket.fd, fd < bound := foldl_max_le_iff _ _ _
  rw [hnfds]
  constructor
  · intro hall fd hfd
    have hserver := (le_max_left host.serverFd 0).trans_lt (Nat.lt_of_succ_le hall.1)
    rcases mem_readfdSet.mp hfd with rfl | rfl | hclient
    · exact (Nat.zero_le _).trans_lt hserver
    · exact hserver
    · exact hall.2 fd hclient
  · intro hall
    refine ⟨?_, fun fd hfd => hall fd (mem_readfdSet.mpr (Or.inr (Or.inr hfd)))⟩
    rw [Nat.max_zero]
    exact hall host.serverFd (mem_readfdSet.mpr (Or.inr (Or.inl rfl)))

/-- What is open below a bound, where the clients are all below it. -/
theorem Inv.card_below (h : Inv host s) {bound : Nat}
    (hclients : ∀ client ∈ s.clientSockets, client.fd < bound) :
    ((s.fds host).filter (· < bound)).card =
      (host.openFds.filter (· < bound)).card + s.clientSockets.length := by
  have hall : (s.clientSockets.map ClientSocket.fd).toFinset.filter (· < bound) =
      (s.clientSockets.map ClientSocket.fd).toFinset := by
    rw [Finset.filter_eq_self]
    intro fd hfd
    obtain ⟨client, hmem, rfl⟩ := List.mem_map.mp (List.mem_toFinset.mp hfd)
    exact hclients client hmem
  unfold fds
  rw [Finset.filter_union, hall, Finset.card_union_of_disjoint, h.card_clients]
  exact Finset.disjoint_of_subset_left (Finset.filter_subset _ _) h.disjoint_clients

/-- The states that a run of the loop passes through. -/
def Passes (host : Host) (events : List ServerEvent) (m : Server) : Prop :=
  ∃ early, early <+: events ∧ run (step host) (create host) early = some m

/-- Every descriptor that a client has in a run is below a bound exactly if the
clients and what was open below it never outnumber it. -/
theorem run_fds_lt_iff (events : List ServerEvent) (bound : Nat) :
    (∀ m, Passes host events m → ∀ client ∈ m.clientSockets, client.fd < bound) ↔
      ∀ m, Passes host events m →
        (host.openFds.filter (· < bound)).card + m.clientSockets.length ≤ bound := by
  constructor
  · -- distinct descriptors below the bound
    intro hall m hm
    have hclients := hall m hm
    obtain ⟨early, _, hrun⟩ := hm
    have hinv := Reachable.inv ⟨early, hrun⟩
    rw [← hinv.card_below hclients]
    have hsub : (m.fds host).filter (· < bound) ⊆ Finset.range bound :=
      fun fd hfd => Finset.mem_range.mpr (Finset.mem_filter.mp hfd).2
    simpa using Finset.card_le_card hsub
  · -- a new descriptor is the lowest free one
    intro hall m hm
    obtain ⟨early, hearly, hrun⟩ := hm
    induction early using List.reverseRecOn generalizing m with
    | nil =>
        obtain rfl := Option.some.inj hrun
        exact fun client hclient => absurd hclient List.not_mem_nil
    | append_singleton early e ih =>
        have hroom := hall m ⟨_, hearly, hrun⟩
        obtain ⟨k, hbefore, hlast⟩ := run_split hrun
        obtain ⟨_, hstep, hsame⟩ := run_cons_some hlast
        obtain rfl := Option.some.inj hsame
        have hold := ih k ((List.prefix_append early [e]).trans hearly) hbefore
        have hinv := Reachable.inv ⟨early, hbefore⟩
        intro client hclient
        cases step_move hstep with
        | connect => exact hold client hclient
        | overruns => exact hold client hclient
        | panics => exact hold client hclient
        | accepts =>
            rcases List.mem_append.mp hclient with hmem | hnew
            · exact hold client hmem
            · obtain rfl := List.mem_singleton.mp hnew
              apply lowestFree_lt
              rw [hinv.card_below hold]
              rw [List.length_append] at hroom
              exact Nat.lt_of_succ_le hroom
        | @serves ready =>
            have hkept := (serveSelected_served_all host ready k.clientSockets).sublist
            exact hold client (hkept.subset hclient)

/-- `FD_SET` passes the end of the set only with a descriptor that does not
fit. -/
theorem not_fits_of_overrun {selected : Option (Finset Nat)} {input : List UInt8} {accepts : Bool}
    (hstep : step host s (.round selected input accepts) = some t)
    (hoverrun : t.status = .overrun) : ¬ s.Fits host := by
  have hgoes : ∀ {status}, Goes status → status ≠ .overrun := by
    intro status hstatus
    rcases hstatus with rfl | rfl
    · exact Status.noConfusion
    · exact Status.noConfusion
  cases step_move hstep with
  | overruns hfits => exact hfits
  | panics => cases hoverrun
  | accepts _ _ hstatus => exact absurd hoverrun (hgoes hstatus)
  | @serves ready _ _ _ _ _ _ hstatus =>
      rcases hstatus with ⟨_, hgo⟩ | ⟨hstays, hsame⟩
      · exact absurd hoverrun (hgoes hgo)
      · rcases serveSelected_status host ready s.clientSockets with hend | ⟨client, _, heq⟩
        · exact absurd (Or.inl hend) hstays
        · have hserve := heq.symm.trans (hsame.symm.trans hoverrun)
          rcases serve_cases host client.connection with hs | hs | hs | hs
          all_goals cases hs.symm.trans hserve

/-- `FD_SET` writes outside the set only where a watched descriptor is too high. -/
theorem exists_not_fits {events : List ServerEvent}
    (h : run (step host) (create host) events = some t) (hoverrun : t.status = .overrun) :
    ∃ m, Passes host events m ∧ ¬ m.Fits host := by
  induction events using List.reverseRecOn generalizing t with
  | nil =>
      obtain rfl := Option.some.inj h
      cases hoverrun
  | append_singleton early e ih =>
      obtain ⟨k, hbefore, hlast⟩ := run_split h
      obtain ⟨_, hstep, hsame⟩ := run_cons_some hlast
      obtain rfl := Option.some.inj hsame
      cases e with
      | connect =>
          obtain rfl := Option.some.inj hstep
          obtain ⟨m, ⟨first, hfirst, hrun⟩, hnot⟩ := ih hbefore hoverrun
          exact ⟨m, ⟨first, hfirst.trans (List.prefix_append _ _), hrun⟩, hnot⟩
      | round selected input accepts =>
          refine ⟨k, ⟨early, List.prefix_append _ _, hbefore⟩, ?_⟩
          exact not_fits_of_overrun hstep hoverrun

/-- **What `select` is asked to watch.**  In every reachable state the set that
the next round passes to `select` holds the standard input, the listening socket
and the clients, `nfds` is one more than its highest member, and no client shares
its descriptor with another one or with one of the others that are open.  Over a
run, all of them stay below a bound exactly if the listening socket is below it and
the clients that the server holds at one time, with the descriptors that were open
below it before, never outnumber it.  With `FD_SETSIZE` for the bound `FD_SET` never
writes outside the set. -/
theorem watched_descriptors {events : List ServerEvent}
    (h : run (step host) (create host) events = some t) :
    (∀ fd, fd ∈ (t.updateSelectParams host).readfdSet ↔
        fd = 0 ∨ fd = host.serverFd ∨ fd ∈ t.clientSockets.map ClientSocket.fd) ∧
      (∀ bound, (t.updateSelectParams host).nfds ≤ bound ↔
        ∀ fd ∈ (t.updateSelectParams host).readfdSet, fd < bound) ∧
      (t.clientSockets.map ClientSocket.fd).Nodup ∧
      (∀ client ∈ t.clientSockets, client.fd ∉ host.openFds) ∧
      (∀ bound, (∀ m, Passes host events m →
            ∀ fd ∈ (m.updateSelectParams host).readfdSet, fd < bound) ↔
          host.serverFd < bound ∧ ∀ m, Passes host events m →
            (host.openFds.filter (· < bound)).card + m.clientSockets.length ≤ bound) ∧
      (host.serverFd < fdSetSize → (∀ m, Passes host events m →
          (host.openFds.filter (· < fdSetSize)).card + m.clientSockets.length ≤ fdSetSize) →
        t.status ≠ .overrun) := by
  have hinv := Reachable.inv ⟨events, h⟩
  have hbelow : ∀ bound, (∀ m, Passes host events m →
      ∀ fd ∈ (m.updateSelectParams host).readfdSet, fd < bound) ↔
        host.serverFd < bound ∧ ∀ m, Passes host events m →
          (host.openFds.filter (· < bound)).card + m.clientSockets.length ≤ bound := by
    intro bound
    rw [← run_fds_lt_iff events bound]
    constructor
    · intro hall
      refine ⟨hall t ⟨events, List.prefix_refl _, h⟩ host.serverFd
        (mem_readfdSet.mpr (Or.inr (Or.inl rfl))), fun m hm client hclient => ?_⟩
      have hmem := List.mem_map_of_mem (f := ClientSocket.fd) hclient
      exact hall m hm client.fd (mem_readfdSet.mpr (Or.inr (Or.inr hmem)))
    · intro hall m hm fd hfd
      rcases mem_readfdSet.mp hfd with rfl | rfl | hclient
      · exact (Nat.zero_le _).trans_lt hall.1
      · exact hall.1
      · obtain ⟨client, hmem, rfl⟩ := List.mem_map.mp hclient
        exact hall.2 m hm client hmem
  refine ⟨fun _ => mem_readfdSet, fun _ => nfds_le_iff, hinv.distinct, hinv.foreign, hbelow, ?_⟩
  intro hserver hfew hoverrun
  obtain ⟨m, hm, hnot⟩ := exists_not_fits h hoverrun
  exact hnot ((hbelow fdSetSize).mpr ⟨hserver, hfew⟩ m hm)

theorem watched_descriptors_ls :
    ∃ s, run (step lsHost) (create lsHost) lsEvents = some s ∧
      (s.updateSelectParams lsHost).nfds ≤ 1024 ∧ s.status ≠ .overrun ∧
      ∀ m, Passes lsHost lsEvents m →
        ∀ fd ∈ (m.updateSelectParams lsHost).readfdSet, fd < 1024 := by
  have hfew : ∀ early ∈ lsEvents.inits, ∀ m ∈ run (step lsHost) (create lsHost) early,
      (lsHost.openFds.filter (· < 1024)).card + m.clientSockets.length ≤ 1024 := by
    decide +kernel
  have hcount : ∀ m, Passes lsHost lsEvents m →
      (lsHost.openFds.filter (· < 1024)).card + m.clientSockets.length ≤ 1024 := by
    intro m hm
    obtain ⟨early, hearly, hrun⟩ := hm
    exact hfew early ((List.mem_inits early lsEvents).mpr hearly) m hrun
  have hserver : lsHost.serverFd < 1024 := by decide
  obtain ⟨s, hrun⟩ : ∃ s, run (step lsHost) (create lsHost) lsEvents = some s := ⟨_, rfl⟩
  obtain ⟨_, hnfds, _, _, hbelow, hoverrun⟩ := watched_descriptors hrun
  have hsmall := (hbelow 1024).mpr ⟨hserver, hcount⟩
  exact ⟨s, hrun, (hnfds 1024).mpr (hsmall s ⟨lsEvents, List.prefix_refl _, hrun⟩),
    hoverrun hserver hcount, hsmall⟩

/-! ## Starvation -/

/-- Rounds in each of which a new connection comes first and some descriptors
are ready. -/
def crowd (ready : Finset Nat) : Nat → List ServerEvent
  | 0 => []
  | n + 1 => .connect :: .round (some ready) [] true :: crowd ready n

theorem crowded_crowd (ready : Finset Nat) (waiting n : Nat) :
    Crowded waiting (crowd ready n) := by
  induction n generalizing waiting with
  | zero => trivial
  | succ n ih => exact ⟨Nat.succ_pos waiting, ih waiting⟩

theorem rounds_crowd (ready : Finset Nat) (n : Nat) : rounds (crowd ready n) = n := by
  induction n with
  | zero => rfl
  | succ n ih => rw [crowd, rounds_connect, rounds_round, ih]

theorem mem_crowd {ready chosen : Finset Nat} {input : List UInt8} {accepts : Bool} {n : Nat}
    (h : ServerEvent.round (some chosen) input accepts ∈ crowd ready n) : chosen = ready := by
  induction n with
  | zero => exact absurd h List.not_mem_nil
  | succ n ih =>
      rcases List.mem_cons.mp h with heq | h
      · exact nomatch heq
      · rcases List.mem_cons.mp h with heq | h
        · cases heq
          rfl
        · exact ih h

/-- The descriptors that are free below `FD_SETSIZE` and the limit of the process. -/
def freeFds (host : Host) (s : Server) : Nat :=
  (Finset.range (min host.fdLimit fdSetSize) \ s.fds host).card

/-- A round of a running server whose descriptors fit. -/
theorem step_round {ready : Finset Nat} (input : List UInt8) (accepts : Bool)
    (hrunning : s.status = .running) (hfits : s.Fits host)
    (hready : (s.updateSelectParams host).Selectable host ready) :
    step host s (.round (some ready) input accepts) =
      some ({ s.updateSelectParams host with readfdSet := ready }.serveRound host input accepts) :=
  (if_pos hrunning).trans ((if_pos hfits).trans (if_pos hready))

/-- A client that is accepted adds its descriptor. -/
theorem fds_append {clients : List ClientSocket} {client : ClientSocket}
    (h : t.clientSockets = clients ++ [client]) (hs : s.clientSockets = clients) :
    t.fds host = insert client.fd (s.fds host) := by
  ext fd
  simp only [fds, h, hs, List.map_append, List.map_cons, List.map_nil, List.toFinset_append,
    List.toFinset_cons, List.toFinset_nil, Finset.mem_union, Finset.mem_insert,
    Finset.notMem_empty, or_false]
  tauto

/-- While a descriptor is free, the lowest free one can be given out. -/
theorem lowestFree_lt_of_freeFds (h : 0 < s.freeFds host) :
    lowestFree (s.fds host) < min host.fdLimit fdSetSize := by
  obtain ⟨fd, hfd⟩ := Finset.card_pos.mp h
  obtain ⟨hrange, hfree⟩ := Finset.mem_sdiff.mp hfd
  exact (lowestFree_le hfree).trans_lt (Finset.mem_range.mp hrange)

/-- With a client that is ready, a connection can still come first. -/
theorem step_crowd (host : Host) {client : ClientSocket} (hrunning : s.status = .running)
    (hfits : s.Fits host) (hfree : 0 < s.freeFds host) (hclient : client ∈ s.clientSockets) :
    ∃ m, step host s.connect (.round (some {host.serverFd, client.fd}) [] true) = some m ∧
      m.status = .running ∧ m.Fits host ∧ m.freeFds host + 1 = s.freeFds host ∧
      client ∈ m.clientSockets := by
  have hlow := lowestFree_lt_of_freeFds hfree
  have hmem : ∀ fd ∈ ({host.serverFd, client.fd} : Finset Nat),
      fd ∈ (s.connect.updateSelectParams host).readfdSet := by
    intro fd hfd
    rcases Finset.mem_insert.mp hfd with rfl | hfd
    · exact mem_readfdSet.mpr (Or.inr (Or.inl rfl))
    · rw [Finset.mem_singleton.mp hfd]
      exact mem_readfdSet.mpr (Or.inr (Or.inr (List.mem_map_of_mem hclient)))
  have hbacklog : s.connect.backlog ≠ [] := List.append_ne_nil_of_right_ne_nil _ (by simp)
  obtain ⟨connection, backlog, hcons⟩ := List.exists_cons_of_ne_nil hbacklog
  have hready : (s.connect.updateSelectParams host).Selectable host {host.serverFd, client.fd} := by
    refine ⟨Finset.insert_nonempty _ _, fun fd hfd => ⟨hmem fd hfd, ?_⟩, ?_⟩
    · exact nfds_le_iff.mp le_rfl fd (hmem fd hfd)
    · exact iff_of_true (Finset.mem_insert_self _ _) hbacklog
  obtain ⟨nfds, hround⟩ := serveRound_accept
    (s := { s.connect.updateSelectParams host with readfdSet := {host.serverFd, client.fd} }) []
    (Finset.mem_insert_self _ _) hcons (hlow.trans_le (min_le_left _ _)) hrunning
  have hstep := step_round (s := s.connect) [] true hrunning hfits hready
  rw [hround] at hstep
  refine ⟨_, hstep, if_pos (by simp [quitInput]), ?_, ?_, List.mem_append_left _ hclient⟩
  · intro fd hfd
    rcases mem_readfdSet.mp hfd with rfl | rfl | hheld
    · exact hfits _ (mem_readfdSet.mpr (Or.inl rfl))
    · exact hfits _ (mem_readfdSet.mpr (Or.inr (Or.inl rfl)))
    · rw [List.map_append] at hheld
      rcases List.mem_append.mp hheld with hold | hnew
      · exact hfits _ (mem_readfdSet.mpr (Or.inr (Or.inr hold)))
      · rw [List.mem_singleton.mp hnew]
        exact hlow.trans_le (min_le_right _ _)
  · unfold freeFds
    rw [fds_append (s := s) rfl rfl, Finset.sdiff_insert]
    exact Finset.card_erase_add_one (Finset.mem_sdiff.mpr
      ⟨Finset.mem_range.mpr hlow, lowestFree_notMem _⟩)

/-- By induction on the free descriptors, a client that is ready waits through
`n` connections. -/
theorem run_crowd (host : Host) {client : ClientSocket} {n : Nat} (hrunning : s.status = .running)
    (hfits : s.Fits host) (hfree : n ≤ s.freeFds host) (hclient : client ∈ s.clientSockets) :
    ∃ m, run (step host) s (crowd {host.serverFd, client.fd} n) = some m ∧
      m.status = .running ∧ m.Fits host := by
  induction n generalizing s with
  | zero => exact ⟨s, rfl, hrunning, hfits⟩
  | succ n ih =>
      obtain ⟨k, hstep, hk, hkfits, hless, hmem⟩ :=
        step_crowd host hrunning hfits (Nat.lt_of_lt_of_le (Nat.succ_pos n) hfree) hclient
      obtain ⟨m, hrun, hm⟩ := ih hk hkfits (by omega) hmem
      refine ⟨m, ?_, hm⟩
      show run (step host) s (.connect :: .round _ [] true :: crowd _ n) = some m
      rw [run_cons, show step host s .connect = some s.connect from rfl, Option.bind_some,
        run_cons, hstep]
      exact hrun

/-- Every client that was accepted took one of the free descriptors. -/
theorem Inv.length_le_freeFds (hs : Inv host s) (ht : Inv host t) (hfits : t.Fits host)
    (hclients : s.clientSockets <+: t.clientSockets) :
    t.clientSockets.length ≤ s.clientSockets.length + s.freeFds host := by
  have hsub : s.fds host ⊆ t.fds host := by
    intro fd hfd
    rcases Finset.mem_union.mp hfd with hopen | hclient
    · exact Finset.mem_union_left _ hopen
    · obtain ⟨client, hmem, rfl⟩ := List.mem_map.mp (List.mem_toFinset.mp hclient)
      exact Finset.mem_union_right _
        (List.mem_toFinset.mpr (List.mem_map_of_mem (hclients.subset hmem)))
  have hnew : t.fds host \ s.fds host ⊆
      Finset.range (min host.fdLimit fdSetSize) \ s.fds host := by
    intro fd hfd
    obtain ⟨hin, hnot⟩ := Finset.mem_sdiff.mp hfd
    refine Finset.mem_sdiff.mpr ⟨Finset.mem_range.mpr ?_, hnot⟩
    have hclient : fd ∈ t.clientSockets.map ClientSocket.fd := by
      rcases Finset.mem_union.mp hin with hopen | hclient
      · exact absurd (Finset.mem_union_left _ hopen) hnot
      · exact List.mem_toFinset.mp hclient
    obtain ⟨client, hmem, rfl⟩ := List.mem_map.mp hclient
    exact lt_min (ht.limited client hmem) (hfits _ (mem_readfdSet.mpr (Or.inr (Or.inr hclient))))
  have hcard := Finset.card_le_card hnew
  rw [Finset.card_sdiff_of_subset hsub, ht.card_fds, hs.card_fds] at hcard
  unfold freeFds
  omega

/-- A round that finds no connection waiting, and comes to its end, serves the
ready clients in the order in which they were accepted. -/
theorem round_serves {ready : Finset Nat} {input : List UInt8} {accepts : Bool}
    (h : step host s (.round (some ready) input accepts) = some t) (hbacklog : s.backlog = [])
    (hgoes : Goes t.status) :
    t.clientSockets = s.clientSockets.filter (fun client => client.fd ∉ ready) ∧
      t.executed = s.executed ++ (s.clientSockets.filter fun client => client.fd ∈ ready).map
        fun client => (client.connection, host.command client.connection) := by
  cases step_move h with
  | overruns => simp [Goes] at hgoes
  | panics => simp [Goes] at hgoes
  | accepts hcons => exact absurd (hcons.symm.trans hbacklog) (List.cons_ne_nil _ _)
  | serves _ _ hstatus =>
      obtain ⟨hkept, hran⟩ := serveSelected_returned (hstatus.pass_of_goes hgoes)
      exact ⟨hkept, congrArg (s.executed ++ ·) hran⟩

/-- **Clients starve while others connect.**  A round serves the clients that are
ready, in the order in which they were accepted, if no connection waits in it.  As
long as one waits in every round, each round that goes on accepts one, nothing is
run, and no client leaves.  So a client can be ready in one round after the other
without being served: in as many as there are descriptors free below `FD_SETSIZE`
and the limit of the process, and no more. -/
theorem starved_by_connections (host : Host) (s : Server) :
    (∀ ready input accepts t, step host s (.round (some ready) input accepts) = some t →
        s.backlog = [] → Goes t.status →
        t.clientSockets = s.clientSockets.filter (fun client => client.fd ∉ ready) ∧
          t.executed = s.executed ++ (s.clientSockets.filter fun client => client.fd ∈ ready).map
            fun client => (client.connection, host.command client.connection)) ∧
      (∀ events t, run (step host) s events = some t → Crowded s.backlog.length events →
        t.executed = s.executed ∧ s.clientSockets <+: t.clientSockets ∧
          (t.status = .running →
            t.clientSockets.length = s.clientSockets.length + rounds events)) ∧
      (Reachable host s → ∀ client ∈ s.clientSockets, s.status = .running → s.Fits host → ∀ n,
        (∃ events t, run (step host) s events = some t ∧ t.status = .running ∧ t.Fits host ∧
          Crowded s.backlog.length events ∧ rounds events = n ∧
          ∀ ready input accepts, .round (some ready) input accepts ∈ events →
            client.fd ∈ ready) ↔
        n ≤ s.freeFds host) := by
  refine ⟨fun _ _ _ _ hstep hbacklog hgoes => round_serves hstep hbacklog hgoes,
    fun _ _ hrun hcrowded => run_crowded hrun hcrowded, ?_⟩
  intro hreach client hclient hrunning hfits n
  constructor
  · intro hstarves
    obtain ⟨events, t, hrun, ht, htfits, hcrowded, rfl, _⟩ := hstarves
    obtain ⟨_, hclients, hcount⟩ := run_crowded hrun hcrowded
    obtain ⟨before, hbefore⟩ := hreach
    have htinv : Inv host t := Reachable.inv ⟨before ++ events, run_join hbefore hrun⟩
    have hmost := Inv.length_le_freeFds (Reachable.inv ⟨before, hbefore⟩) htinv htfits hclients
    have hall := hcount ht
    omega
  · intro hfree
    obtain ⟨t, hrun, ht, htfits⟩ := run_crowd host hrunning hfits hfree hclient
    refine ⟨_, t, hrun, ht, htfits, crowded_crowd _ _ n, rounds_crowd _ n, ?_⟩
    intro ready input accepts hmem
    rw [mem_crowd hmem]
    exact Finset.mem_insert_of_mem (Finset.mem_singleton_self _)

/-- One of two clients is held, and 1019 descriptors are free. -/
theorem starved_by_connections_ls :
    ∃ s, run (step lsHost) (create lsHost) (lsEvents.take 2) = some s ∧
      ∃ events t, run (step lsHost) s events = some t ∧ rounds events = 1019 ∧
        t.executed = s.executed := by
  obtain ⟨s, hrun, hclient, hrunning, hfits, hfds⟩ : ∃ s,
      run (step lsHost) (create lsHost) (lsEvents.take 2) = some s ∧
        ⟨4, 0⟩ ∈ s.clientSockets ∧ s.status = .running ∧ s.Fits lsHost ∧
        s.fds lsHost = Finset.range 5 :=
    ⟨_, rfl, List.mem_singleton_self _, rfl, by decide, by decide⟩
  have hfree : s.freeFds lsHost = 1019 := by
    unfold freeFds
    rw [hfds, Finset.card_sdiff_of_subset, Finset.card_range, Finset.card_range]
    · rfl
    · exact Finset.range_subset_range.mpr (by decide)
  obtain ⟨_, hstarved, hpossible⟩ := starved_by_connections lsHost s
  obtain ⟨events, t, hmore, _, _, hcrowded, hrounds, _⟩ :=
    (hpossible ⟨_, hrun⟩ _ hclient hrunning hfits 1019).mpr hfree.ge
  exact ⟨s, hrun, events, t, hmore, hrounds, (hstarved events t hmore hcrowded).1⟩

end Server

end Sockets
