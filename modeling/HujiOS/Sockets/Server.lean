import HujiOS.Runs
import HujiOS.Sockets.Transfer
import Mathlib.Data.Finset.Card

/-!
# The server's loop

`Server::loop` with `select`.  The kernel has the connections that wait to be
accepted, gives an accepted one the lowest free descriptor and says which
descriptors are ready; that set, the line that was typed and whether `accept`
succeeds are inputs of a round.  Connections are numbered in the order in which
they reach the listening socket.

A round that finds a connection waiting accepts one and looks at no client, so
clients are served only in rounds that find none.  The loop is a single thread:
a `read` that waits for a client, and a command of the shell that does not end,
keep it from everything else.
-/

namespace Sockets

open Runs

/-- `FD_SETSIZE`. -/
def fdSetSize : Nat := 1024

/-- What becomes of a connection once it is served. -/
structure Peer where
  /-- the bytes that the client sends before it closes -/
  stream : List UInt8
  /-- how the server's reads cut them -/
  reads : List (Option Nat)
  /-- what the server's buffer holds before -/
  cmdToRun : Nat → UInt8
  /-- `getpeername` finds the client's address -/
  hasName : Bool
  /-- the command that the shell is given comes to an end -/
  ends : Bool

/-- An accepted connection. -/
structure ClientSocket where
  fd : Nat
  connection : Nat
  deriving DecidableEq, Repr

/-- What the server finds when it starts. -/
structure Host where
  serverFd : Nat
  /-- the open descriptors that are no client's -/
  openFds : Finset Nat
  /-- the first number that `accept` gives to no client (`RLIMIT_NOFILE`) -/
  fdLimit : Nat
  stdin_mem : 0 ∈ openFds
  server_mem : serverFd ∈ openFds
  peers : Nat → Peer

/-- `handleClient` on a connection up to `system`: `getPeerIpAddress` panics where
the client has no address. -/
def Host.handle (host : Host) (connection : Nat) : Outcome × (Nat → UInt8) × List UInt8 :=
  let peer := host.peers connection
  if peer.hasName then handleClient peer.reads peer.stream peer.cmdToRun
  else (.panicked, peer.cmdToRun, [])

/-- How reading from a connection ends. -/
def Host.outcome (host : Host) (connection : Nat) : Outcome := (host.handle connection).1

/-- The string that `system` is given for a connection. -/
def Host.command (host : Host) (connection : Nat) : List UInt8 := (host.handle connection).2.2

/-- Where the loop is. -/
inductive Status
  | running
  /-- `quit` was typed -/
  | stopped
  | panicked
  /-- in a `read` of `handleClient` or an `accept` that has not returned -/
  | blocked
  /-- in `system`, with a command that does not end -/
  | inShell (connection : Nat) (command : List UInt8)
  /-- `FD_SET` wrote outside the set -/
  | overrun
  deriving DecidableEq, Repr

/-- How serving a connection leaves the loop; `system` waits for the command. -/
def Host.serve (host : Host) (connection : Nat) : Status :=
  match host.outcome connection with
  | .returned =>
      if (host.peers connection).ends then .running
      else .inShell connection (host.command connection)
  | .panicked => .panicked
  | .waiting => .blocked

/-- The fields of the class, with the queue of the listening socket and what was
run. -/
structure Server where
  /-- the connections that wait to be accepted -/
  backlog : List Nat
  /-- how many have reached the listening socket -/
  arrived : Nat
  clientSockets : List ClientSocket
  nfds : Nat
  readfdSet : Finset Nat
  status : Status
  /-- the served connections and the strings that `system` has run -/
  executed : List (Nat × List UInt8)

/-- What happens to the server from outside. -/
inductive ServerEvent
  /-- a connection reaches the listening socket -/
  | connect
  /-- one round: what `select` leaves in the set, `none` for -1 -/
  | round (selected : Option (Finset Nat)) (input : List UInt8) (accepts : Bool)

/-- The lowest descriptor that is not open. -/
def lowestFree (fds : Finset Nat) : Nat :=
  ((List.range (fds.card + 1)).find? fun fd => decide (fd ∉ fds)).getD 0

namespace Server

/-- The server listens, with no client. -/
def create (host : Host) : Server where
  backlog := []
  arrived := 0
  clientSockets := []
  nfds := max 0 host.serverFd + 1
  readfdSet := ∅
  status := .running
  executed := []

variable (host : Host)

/-- `updateSelectParams`: standard input, the listening socket and all clients
are watched. -/
def updateSelectParams (s : Server) : Server :=
  { s with
    nfds := s.clientSockets.foldl (fun nfds client => max nfds (client.fd + 1))
      (max host.serverFd 0 + 1)
    readfdSet := s.clientSockets.foldl (fun fds client => insert client.fd fds)
      (insert 0 {host.serverFd}) }

/-- The descriptors that are open. -/
def fds (s : Server) : Finset Nat :=
  host.openFds ∪ (s.clientSockets.map ClientSocket.fd).toFinset

/-- `accept` returns -1 unless `accepts` and a descriptor is free, and would wait
with an empty queue. -/
def acceptClient (s : Server) (accepts : Bool) : Server :=
  if accepts ∧ lowestFree (s.fds host) < host.fdLimit then
    match s.backlog with
    | [] => { s with status := .blocked }
    | connection :: backlog =>
        let fd := lowestFree (s.fds host)
        { s with
          backlog := backlog
          nfds := max s.nfds (fd + 1)
          clientSockets := s.clientSockets ++ [⟨fd, connection⟩] }
  else { s with status := .panicked }

/-- The loop over the clients: how it leaves the server (`running` at its end),
the clients that are left and what was run. -/
def serveSelected (readfdSet : Finset Nat) :
    List ClientSocket → Status × List ClientSocket × List (Nat × List UInt8)
  | [] => (.running, [], [])
  | client :: rest =>
      if client.fd ∈ readfdSet then
        match host.serve client.connection with
        | .running =>
            let (status, kept, executed) := serveSelected readfdSet rest
            (status, kept, (client.connection, host.command client.connection) :: executed)
        | status => (status, client :: rest, [])
      else
        let (status, kept, executed) := serveSelected readfdSet rest
        (status, client :: kept, executed)

/-- `handleClients`, which panics, waits or goes on as the loop over the
clients does. -/
def handleClients (s : Server) : Server :=
  let (status, kept, executed) := serveSelected host s.readfdSet s.clientSockets
  { s with
    clientSockets := kept
    executed := s.executed ++ executed
    status := if status = .running then s.status else status }

/-- What `select` can leave in the set: the listening socket is ready exactly if
a connection waits. -/
def Selectable (s : Server) (ready : Finset Nat) : Prop :=
  ready.Nonempty ∧ (∀ fd ∈ ready, fd ∈ s.readfdSet ∧ fd < s.nfds) ∧
    (host.serverFd ∈ ready ↔ s.backlog ≠ [])

instance (s : Server) (ready : Finset Nat) : Decidable (s.Selectable host ready) :=
  inferInstanceAs (Decidable (_ ∧ _ ∧ _))

/-- The string `quit`. -/
def quitInput : List UInt8 := [113, 117, 105, 116]

/-- The body of the loop after `select`. -/
def serveRound (s : Server) (input : List UInt8) (accepts : Bool) : Server :=
  let running := decide (¬ (0 ∈ s.readfdSet ∧ input = quitInput))
  let t := if host.serverFd ∈ s.readfdSet then s.acceptClient host accepts
    else s.handleClients host
  if t.status = .running then { t with status := if running then .running else .stopped } else t

/-- A connection reaches the listening socket. -/
def connect (s : Server) : Server :=
  { s with backlog := s.backlog ++ [s.arrived], arrived := s.arrived + 1 }

/-- The descriptors that the next round watches are numbers that an `fd_set` can
hold. -/
def Fits (s : Server) : Prop := ∀ fd ∈ (s.updateSelectParams host).readfdSet, fd < fdSetSize

instance (s : Server) : Decidable (s.Fits host) := inferInstanceAs (Decidable (∀ _ ∈ _, _))

/-- A connection that arrives, or one turn of the loop. -/
def step (s : Server) : ServerEvent → Option Server
  | .connect => some s.connect
  | .round selected input accepts =>
      if s.status = .running then
        if s.Fits host then
          let s := s.updateSelectParams host
          match selected with
          | none => some { s with status := .panicked }
          | some ready =>
              if s.Selectable host ready then
                some ({ s with readfdSet := ready }.serveRound host input accepts)
              else none
        else some { s.updateSelectParams host with status := .overrun }
      else none

/-- Some connections and some rounds lead to `s`. -/
def Reachable (s : Server) : Prop := Reaches (step host) (create host) s

/-- What `system` was given, also where it has not returned. -/
def given (s : Server) : List (Nat × List UInt8) :=
  s.executed ++ match s.status with
    | .inShell connection command => [(connection, command)]
    | _ => []

end Server

/-! ## One pass over the clients -/

namespace Server

variable {host : Host} {ready : Finset Nat} {clients : List ClientSocket}

theorem serveSelected_skip {client : ClientSocket} (h : client.fd ∉ ready) :
    serveSelected host ready (client :: clients) =
      ((serveSelected host ready clients).1, client :: (serveSelected host ready clients).2.1,
        (serveSelected host ready clients).2.2) := by
  rw [serveSelected, if_neg h]

theorem serveSelected_served {client : ClientSocket} (h : client.fd ∈ ready)
    (hserved : host.serve client.connection = .running) :
    serveSelected host ready (client :: clients) =
      ((serveSelected host ready clients).1, (serveSelected host ready clients).2.1,
        (client.connection, host.command client.connection) ::
          (serveSelected host ready clients).2.2) := by
  rw [serveSelected, if_pos h, hserved]

theorem serveSelected_failed {client : ClientSocket} (h : client.fd ∈ ready)
    (hfailed : host.serve client.connection ≠ .running) :
    serveSelected host ready (client :: clients) =
      (host.serve client.connection, client :: clients, []) := by
  rw [serveSelected, if_pos h]
  generalize host.serve client.connection = status at hfailed ⊢
  cases status with
  | running => exact absurd rfl hfailed
  | _ => rfl

/-- Serving a connection does not end the loop as `quit` does, and `FD_SET` has no
part in it. -/
theorem serve_cases (host : Host) (connection : Nat) :
    host.serve connection = .running ∨ host.serve connection = .panicked ∨
      host.serve connection = .blocked ∨
      host.serve connection = .inShell connection (host.command connection) := by
  unfold Host.serve
  cases host.outcome connection with
  | returned => cases (host.peers connection).ends <;> simp
  | panicked => simp
  | waiting => simp

/-- A served connection was read to its end. -/
theorem outcome_of_serve {connection : Nat} (h : host.serve connection = .running) :
    host.outcome connection = .returned := by
  unfold Host.serve at h
  split at h
  · assumption
  · cases h
  · cases h

/-- So was the one whose command does not end. -/
theorem outcome_of_inShell {connection other : Nat} {command : List UInt8}
    (h : host.serve connection = .inShell other command) :
    other = connection ∧ host.outcome connection = .returned ∧
      command = host.command connection := by
  unfold Host.serve at h
  split at h
  · next hreturned =>
      split at h
      · cases h
      · cases h
        exact ⟨rfl, hreturned, rfl⟩
  · cases h
  · cases h

/-- What a pass does with the clients: it serves some, in their order, and keeps
the others, in theirs. -/
structure Served (host : Host) (status : Status) (clients kept : List ClientSocket)
    (executed : List (Nat × List UInt8)) : Prop where
  perm : (executed.map Prod.fst ++ kept.map ClientSocket.connection).Perm
    (clients.map ClientSocket.connection)
  sublist : kept.Sublist clients
  ran : ∀ e ∈ executed, host.outcome e.1 = .returned ∧ e.2 = host.command e.1
  /-- the client whose command does not end is kept -/
  shell : ∀ connection command, status = .inShell connection command →
    connection ∈ kept.map ClientSocket.connection ∧ host.outcome connection = .returned ∧
      command = host.command connection

/-- By induction over the clients, the loop serves some of them in order. -/
theorem serveSelected_served_all (host : Host) (ready : Finset Nat) (clients : List ClientSocket) :
    Served host (serveSelected host ready clients).1 clients
      (serveSelected host ready clients).2.1 (serveSelected host ready clients).2.2 := by
  induction clients with
  | nil =>
      exact ⟨List.Perm.refl _, List.Sublist.refl _, by simp [serveSelected],
        fun _ _ heq => Status.noConfusion heq⟩
  | cons client rest ih =>
      by_cases hready : client.fd ∈ ready
      · by_cases hserved : host.serve client.connection = .running
        · rw [serveSelected_served hready hserved]
          refine ⟨?_, ih.sublist.trans (List.sublist_cons_self _ _), ?_, ih.shell⟩
          · simpa using ih.perm
          · intro e he
            rcases List.mem_cons.mp he with rfl | he
            · exact ⟨outcome_of_serve hserved, rfl⟩
            · exact ih.ran e he
        · rw [serveSelected_failed hready hserved]
          refine ⟨List.Perm.refl _, List.Sublist.refl _, by simp, ?_⟩
          intro connection command hshell
          obtain ⟨rfl, hread⟩ := outcome_of_inShell hshell
          exact ⟨by simp, hread⟩
      · rw [serveSelected_skip hready]
        refine ⟨?_, ih.sublist.cons_cons _, ih.ran, ?_⟩
        · rw [List.map_cons, List.map_cons]
          exact List.perm_middle.trans (ih.perm.cons _)
        · intro connection command hshell
          obtain ⟨hmem, hread⟩ := ih.shell connection command hshell
          exact ⟨List.mem_cons_of_mem _ hmem, hread⟩

/-- A pass that comes to its end has served the ready clients and keeps the
others. -/
theorem serveSelected_returned (h : (serveSelected host ready clients).1 = .running) :
    (serveSelected host ready clients).2.1 = clients.filter (fun client => client.fd ∉ ready) ∧
      (serveSelected host ready clients).2.2 = (clients.filter fun client => client.fd ∈ ready).map
        fun client => (client.connection, host.command client.connection) := by
  induction clients with
  | nil => exact ⟨rfl, rfl⟩
  | cons client rest ih =>
      by_cases hready : client.fd ∈ ready
      · by_cases hserved : host.serve client.connection = .running
        · rw [serveSelected_served hready hserved] at h ⊢
          obtain ⟨hkept, hran⟩ := ih h
          simp [hready, hkept, hran]
        · rw [serveSelected_failed hready hserved] at h
          exact absurd h hserved
      · rw [serveSelected_skip hready] at h ⊢
        obtain ⟨hkept, hran⟩ := ih h
        simp [hready, hkept, hran]

/-- A pass ends as serving one of the clients does, or at its end. -/
theorem serveSelected_status (host : Host) (ready : Finset Nat) (clients : List ClientSocket) :
    (serveSelected host ready clients).1 = .running ∨
      ∃ client ∈ clients, (serveSelected host ready clients).1 = host.serve client.connection := by
  induction clients with
  | nil => exact Or.inl rfl
  | cons client rest ih =>
      have hrest : (serveSelected host ready rest).1 = .running ∨ ∃ other ∈ client :: rest,
          (serveSelected host ready rest).1 = host.serve other.connection :=
        ih.imp_right fun hother =>
          let ⟨other, hmem, heq⟩ := hother
          ⟨other, List.mem_cons_of_mem _ hmem, heq⟩
      by_cases hready : client.fd ∈ ready
      · by_cases hserved : host.serve client.connection = .running
        · rw [serveSelected_served hready hserved]
          exact hrest
        · rw [serveSelected_failed hready hserved]
          exact Or.inr ⟨client, List.mem_cons_self, rfl⟩
      · rw [serveSelected_skip hready]
        exact hrest

/-! ## What a round can do -/

variable {s t : Server}

/-- Reading the input ends the loop or goes on. -/
def Goes (status : Status) : Prop := status = .running ∨ status = .stopped

/-- How a round ends after a pass over the clients. -/
def Leaves (pass status : Status) : Prop :=
  pass = .running ∧ Goes status ∨ ¬ Goes pass ∧ status = pass

theorem Leaves.pass_of_goes {pass status : Status} (h : Leaves pass status) (hgoes : Goes status) :
    pass = .running := by
  rcases h with ⟨hend, _⟩ | ⟨hnot, rfl⟩
  · exact hend
  · exact absurd hgoes hnot

/-- Everything a step can do. -/
inductive Move (host : Host) (s : Server) : ServerEvent → Server → Prop
  | connect : Move host s .connect s.connect
  | overruns {selected : Option (Finset Nat)} {input : List UInt8} {accepts : Bool} {nfds : Nat}
      {readfdSet : Finset Nat} (hfits : ¬ s.Fits host) :
      Move host s (.round selected input accepts)
        { s with nfds := nfds, readfdSet := readfdSet, status := .overrun }
  | panics {selected : Option (Finset Nat)} {input : List UInt8} {accepts : Bool} {nfds : Nat}
      {readfdSet : Finset Nat} (hfails : selected = none ∨
        s.backlog ≠ [] ∧ (accepts = false ∨ host.fdLimit ≤ lowestFree (s.fds host))) :
      Move host s (.round selected input accepts)
        { s with nfds := nfds, readfdSet := readfdSet, status := .panicked }
  | accepts {ready : Finset Nat} {input : List UInt8} {connection nfds : Nat}
      {backlog : List Nat} {status : Status} (hbacklog : s.backlog = connection :: backlog)
      (hroom : lowestFree (s.fds host) < host.fdLimit) (hstatus : Goes status) :
      Move host s (.round (some ready) input true)
        { s with
          backlog := backlog
          clientSockets := s.clientSockets ++ [⟨lowestFree (s.fds host), connection⟩]
          nfds := nfds
          readfdSet := ready
          status := status }
  | serves {ready : Finset Nat} {input : List UInt8} {accepts : Bool} {nfds : Nat}
      {status : Status} (hfits : s.Fits host) (hbacklog : s.backlog = [])
      (hstatus : Leaves (serveSelected host ready s.clientSockets).1 status) :
      Move host s (.round (some ready) input accepts)
        { s with
          clientSockets := (serveSelected host ready s.clientSockets).2.1
          executed := s.executed ++ (serveSelected host ready s.clientSockets).2.2
          nfds := nfds
          readfdSet := ready
          status := status }

/-- A pass that goes on has come to its end. -/
theorem serveSelected_goes (host : Host) (ready : Finset Nat) (clients : List ClientSocket)
    (h : Goes (serveSelected host ready clients).1) :
    (serveSelected host ready clients).1 = .running := by
  rcases serveSelected_status host ready clients with hend | ⟨client, _, heq⟩
  · exact hend
  · rw [heq] at h ⊢
    rcases serve_cases host client.connection with hs | hs | hs | hs
    · exact hs
    · simp [Goes, hs] at h
    · simp [Goes, hs] at h
    · simp [Goes, hs] at h

theorem goes_ite (c : Prop) [Decidable c] : Goes (if c then .running else .stopped) := by
  split
  · exact Or.inl rfl
  · exact Or.inr rfl

/-- A round that accepts. -/
theorem serveRound_accept (input : List UInt8) {connection : Nat} {backlog : List Nat}
    (hserver : host.serverFd ∈ s.readfdSet) (hbacklog : s.backlog = connection :: backlog)
    (hroom : lowestFree (s.fds host) < host.fdLimit) (hrunning : s.status = .running) :
    ∃ nfds, s.serveRound host input true =
      { s with
        backlog := backlog
        clientSockets := s.clientSockets ++ [⟨lowestFree (s.fds host), connection⟩]
        nfds := nfds
        status := if decide (¬ (0 ∈ s.readfdSet ∧ input = quitInput)) then .running
          else .stopped } := by
  unfold serveRound acceptClient
  simp only [hserver, hbacklog, hroom, hrunning, and_self, if_true]
  exact ⟨_, rfl⟩

/-- A round in which `accept` fails. -/
theorem serveRound_panic (input : List UInt8) {accepts : Bool}
    (hserver : host.serverFd ∈ s.readfdSet)
    (hfails : accepts = false ∨ host.fdLimit ≤ lowestFree (s.fds host)) :
    s.serveRound host input accepts = { s with status := .panicked } := by
  have hno : ¬ (accepts = true ∧ lowestFree (s.fds host) < host.fdLimit) := by
    rintro ⟨htrue, hroom⟩
    rcases hfails with hfalse | hfull
    · cases htrue.symm.trans hfalse
    · omega
  unfold serveRound acceptClient
  simp only [hserver, if_true, if_neg hno, reduceCtorEq, if_false]

/-- A round that serves. -/
theorem serveRound_serve (input : List UInt8) (accepts : Bool)
    (hserver : host.serverFd ∉ s.readfdSet) (hrunning : s.status = .running) :
    ∃ status, Leaves (serveSelected host s.readfdSet s.clientSockets).1 status ∧
      s.serveRound host input accepts =
      { s with
        clientSockets := (serveSelected host s.readfdSet s.clientSockets).2.1
        executed := s.executed ++ (serveSelected host s.readfdSet s.clientSockets).2.2
        status := status } := by
  unfold serveRound handleClients
  rw [if_neg hserver]
  have hpass := serveSelected_goes host s.readfdSet s.clientSockets
  generalize serveSelected host s.readfdSet s.clientSockets = result at hpass ⊢
  obtain ⟨pass, kept, executed⟩ := result
  by_cases hend : pass = .running
  · simp only [hend, hrunning, if_true]
    exact ⟨_, Or.inl ⟨rfl, goes_ite _⟩, rfl⟩
  · simp only [if_neg hend]
    exact ⟨pass, Or.inr ⟨fun hgoes => hend (hpass hgoes), rfl⟩, rfl⟩

/-- Every event is one that `Move` lists. -/
theorem step_move {e : ServerEvent} (h : s.step host e = some t) : Move host s e t := by
  cases e with
  | connect => exact Option.some.inj h ▸ .connect
  | round selected input accepts =>
      obtain ⟨hrunning, h⟩ := Option.ite_none_right_eq_some.mp h
      by_cases hfits : s.Fits host
      · rw [if_pos hfits] at h
        cases selected with
        | none => exact Option.some.inj h ▸ .panics (Or.inl rfl)
        | some ready =>
            obtain ⟨⟨_, _, hwaits⟩, ht⟩ := Option.ite_none_right_eq_some.mp h
            obtain rfl := Option.some.inj ht
            have hsame : (s.updateSelectParams host).backlog = s.backlog := rfl
            rw [hsame] at hwaits
            by_cases hserver : host.serverFd ∈ ready
            · have hbacklog := hwaits.mp hserver
              by_cases hfails : accepts = false ∨ host.fdLimit ≤ lowestFree (s.fds host)
              · have heq := serveRound_panic
                  (s := { s.updateSelectParams host with readfdSet := ready }) input hserver hfails
                exact heq ▸ .panics (Or.inr ⟨hbacklog, hfails⟩)
              · obtain ⟨hnot, hroom⟩ := not_or.mp hfails
                obtain rfl : accepts = true := by simpa using hnot
                obtain ⟨connection, backlog, hcons⟩ := List.exists_cons_of_ne_nil hbacklog
                obtain ⟨nfds, heq⟩ := serveRound_accept
                  (s := { s.updateSelectParams host with readfdSet := ready }) input
                  hserver hcons (Nat.lt_of_not_le hroom) hrunning
                exact heq ▸ .accepts hcons (Nat.lt_of_not_le hroom) (goes_ite _)
            · have hbacklog : s.backlog = [] := not_not.mp (mt hwaits.mpr hserver)
              obtain ⟨status, hleaves, heq⟩ := serveRound_serve
                (s := { s.updateSelectParams host with readfdSet := ready }) input accepts
                hserver hrunning
              exact heq ▸ .serves hfits hbacklog hleaves
      · rw [if_neg hfits] at h
        exact Option.some.inj h ▸ .overruns hfits

/-! ## The invariant -/

/-- What holds between the rounds. -/
structure Inv (host : Host) (s : Server) : Prop where
  /-- every connection is in one place -/
  conserved : (s.executed.map Prod.fst ++ s.clientSockets.map ClientSocket.connection ++
    s.backlog).Perm (List.range s.arrived)
  ordered : (s.clientSockets.map ClientSocket.connection ++ s.backlog).Pairwise (· < ·)
  ran : ∀ e ∈ s.executed, host.outcome e.1 = .returned ∧ e.2 = host.command e.1
  distinct : (s.clientSockets.map ClientSocket.fd).Nodup
  foreign : ∀ client ∈ s.clientSockets, client.fd ∉ host.openFds
  limited : ∀ client ∈ s.clientSockets, client.fd < host.fdLimit
  /-- the client whose command does not end is still held -/
  shell : ∀ connection command, s.status = .inShell connection command →
    connection ∈ s.clientSockets.map ClientSocket.connection ∧
      host.outcome connection = .returned ∧ command = host.command connection

theorem Inv.create : Inv host (create host) where
  conserved := List.Perm.refl _
  ordered := List.Pairwise.nil
  ran := by simp [Server.create]
  distinct := List.nodup_nil
  foreign := by simp [Server.create]
  limited := by simp [Server.create]
  shell := fun _ _ heq => Status.noConfusion heq

/-- What the search for a free descriptor finds. -/
theorem lowestFree_spec (fds : Finset Nat) :
    lowestFree fds ∉ fds ∧ ∀ fd, fd ∉ fds → lowestFree fds ≤ fd := by
  have hexists : ∃ fd ∈ List.range (fds.card + 1), decide (fd ∉ fds) = true := by
    by_contra hnone
    have hall : Finset.range (fds.card + 1) ⊆ fds := by
      intro fd hfd
      by_contra hfree
      exact hnone ⟨fd, List.mem_range.mpr (Finset.mem_range.mp hfd), decide_eq_true hfree⟩
    have hcard := Finset.card_le_card hall
    rw [Finset.card_range] at hcard
    omega
  obtain ⟨found, hfind⟩ := Option.isSome_iff_exists.mp (List.find?_isSome.mpr hexists)
  have hfound : lowestFree fds = found := by
    unfold lowestFree
    rw [hfind]
    rfl
  obtain ⟨hfree, hmem, hbefore⟩ := List.find?_range_eq_some.mp hfind
  rw [hfound]
  refine ⟨by simpa using hfree, fun fd hfd => ?_⟩
  by_contra hless
  have htaken := hbefore fd (Nat.lt_of_not_le hless)
  simp [hfd] at htaken

/-- The descriptor that `accept` returns is not open. -/
theorem lowestFree_notMem (fds : Finset Nat) : lowestFree fds ∉ fds := (lowestFree_spec fds).1

theorem lowestFree_le {fds : Finset Nat} {fd : Nat} (h : fd ∉ fds) : lowestFree fds ≤ fd :=
  (lowestFree_spec fds).2 fd h

/-- Where fewer descriptors than the bound are open below it, the lowest free one
is below it. -/
theorem lowestFree_lt {fds : Finset Nat} {bound : Nat}
    (h : (fds.filter (· < bound)).card < bound) : lowestFree fds < bound := by
  have hmore : (fds.filter (· < bound)).card < (Finset.range bound).card := by
    rwa [Finset.card_range]
  obtain ⟨fd, hbelow, hfree⟩ := Finset.exists_mem_notMem_of_card_lt_card hmore
  have hlt := Finset.mem_range.mp hbelow
  have hnot : fd ∉ fds := fun hmem => hfree (Finset.mem_filter.mpr ⟨hmem, hlt⟩)
  exact (lowestFree_le hnot).trans_lt hlt

namespace Inv

theorem card_clients (h : Inv host s) :
    (s.clientSockets.map ClientSocket.fd).toFinset.card = s.clientSockets.length := by
  rw [List.toFinset_card_of_nodup h.distinct, List.length_map]

theorem disjoint_clients (h : Inv host s) :
    Disjoint host.openFds (s.clientSockets.map ClientSocket.fd).toFinset := by
  rw [Finset.disjoint_left]
  intro fd hopen hclient
  obtain ⟨client, hmem, rfl⟩ := List.mem_map.mp (List.mem_toFinset.mp hclient)
  exact h.foreign client hmem hopen

/-- Every client holds one descriptor. -/
theorem card_fds (h : Inv host s) :
    (s.fds host).card = host.openFds.card + s.clientSockets.length := by
  rw [Server.fds, Finset.card_union_of_disjoint h.disjoint_clients, h.card_clients]

/-- A new client gets a descriptor of its own. -/
theorem accepts (h : Inv host s) {connection : Nat} {backlog : List Nat}
    (hbacklog : s.backlog = connection :: backlog)
    (hroom : lowestFree (s.fds host) < host.fdLimit) (nfds : Nat) (ready : Finset Nat)
    {status : Status} (hstatus : Goes status) :
    Inv host { s with
      backlog := backlog
      clientSockets := s.clientSockets ++ [⟨lowestFree (s.fds host), connection⟩]
      nfds := nfds
      readfdSet := ready
      status := status } := by
  have hfree := lowestFree_notMem (s.fds host)
  have hnotOpen : lowestFree (s.fds host) ∉ host.openFds :=
    fun hopen => hfree (Finset.mem_union_left _ hopen)
  have hnotClient : lowestFree (s.fds host) ∉ s.clientSockets.map ClientSocket.fd :=
    fun hclient => hfree (Finset.mem_union_right _ (List.mem_toFinset.mpr hclient))
  generalize lowestFree (s.fds host) = fd at hnotOpen hnotClient hroom ⊢
  have hmoved : (s.clientSockets ++ [ClientSocket.mk fd connection]).map
      ClientSocket.connection ++ backlog =
        s.clientSockets.map ClientSocket.connection ++ s.backlog := by
    simp [hbacklog]
  refine ⟨?_, hmoved ▸ h.ordered, h.ran, ?_, ?_, ?_, ?_⟩
  · rw [List.append_assoc, hmoved, ← List.append_assoc]
    exact h.conserved
  · rw [List.map_append]
    refine List.Nodup.append h.distinct (List.nodup_singleton _) ?_
    intro x hx hnew
    obtain rfl : x = fd := List.mem_singleton.mp hnew
    exact hnotClient hx
  · intro client hclient
    rcases List.mem_append.mp hclient with hold | hnew
    · exact h.foreign client hold
    · obtain rfl := List.mem_singleton.mp hnew
      exact hnotOpen
  · intro client hclient
    rcases List.mem_append.mp hclient with hold | hnew
    · exact h.limited client hold
    · obtain rfl := List.mem_singleton.mp hnew
      exact hroom
  · intro other command hshell
    rcases hstatus with rfl | rfl
    · cases hshell
    · cases hshell

/-- Serving takes clients away. -/
theorem serves (h : Inv host s) {pass status : Status} {kept : List ClientSocket}
    {executed : List (Nat × List UInt8)} (hserved : Served host pass s.clientSockets kept executed)
    (hbacklog : s.backlog = []) (hstatus : Leaves pass status) (nfds : Nat)
    (readfdSet : Finset Nat) :
    Inv host { s with
      clientSockets := kept
      executed := s.executed ++ executed
      nfds := nfds
      readfdSet := readfdSet
      status := status } := by
  have hmem : ∀ client ∈ kept, client ∈ s.clientSockets := fun _ hc => hserved.sublist.subset hc
  have hconserved := h.conserved
  have hordered := h.ordered
  rw [hbacklog, List.append_nil] at hconserved hordered
  refine ⟨?_, ?_, ?_, ?_, fun client hc => h.foreign client (hmem client hc),
    fun client hc => h.limited client (hmem client hc), ?_⟩
  · rw [hbacklog, List.append_nil, List.map_append, List.append_assoc]
    exact (hserved.perm.append_left _).trans hconserved
  · rw [hbacklog, List.append_nil]
    exact hordered.sublist (hserved.sublist.map _)
  · intro e he
    rcases List.mem_append.mp he with hold | hnew
    · exact h.ran e hold
    · exact hserved.ran e hnew
  · exact h.distinct.sublist (hserved.sublist.map _)
  · intro connection command hshell
    rcases hstatus with ⟨_, rfl | rfl⟩ | ⟨_, rfl⟩
    · cases hshell
    · cases hshell
    · exact hserved.shell connection command hshell

/-- Every event keeps the invariant. -/
theorem step (h : Inv host s) {e : ServerEvent} (hstep : s.step host e = some t) : Inv host t := by
  cases step_move hstep with
  | connect =>
      refine ⟨?_, ?_, h.ran, h.distinct, h.foreign, h.limited, h.shell⟩
      · dsimp only [connect]
        rw [List.range_succ, ← List.append_assoc]
        exact h.conserved.append_right _
      · dsimp only [connect]
        rw [← List.append_assoc, List.pairwise_append]
        refine ⟨h.ordered, List.pairwise_singleton _ _, ?_⟩
        intro n hn m hm
        have hin : n ∈ List.range s.arrived :=
          h.conserved.mem_iff.mp (by
            rw [List.append_assoc]
            exact List.mem_append_right _ hn)
        exact List.mem_singleton.mp hm ▸ List.mem_range.mp hin
  | overruns =>
      exact ⟨h.conserved, h.ordered, h.ran, h.distinct, h.foreign, h.limited,
        fun _ _ heq => Status.noConfusion heq⟩
  | panics =>
      exact ⟨h.conserved, h.ordered, h.ran, h.distinct, h.foreign, h.limited,
        fun _ _ heq => Status.noConfusion heq⟩
  | accepts hbacklog hroom hstatus => exact h.accepts hbacklog hroom _ _ hstatus
  | @serves ready _ _ _ _ _ hbacklog hstatus =>
      exact h.serves (serveSelected_served_all host ready s.clientSockets) hbacklog hstatus _ _

/-- What `system` was given is what was read. -/
theorem ran_given (h : Inv host s) :
    ∀ e ∈ s.given, host.outcome e.1 = .returned ∧ e.2 = host.command e.1 := by
  intro e he
  rcases List.mem_append.mp he with hdone | hshell
  · exact h.ran e hdone
  · split at hshell
    · next connection command hstatus =>
        obtain rfl := List.mem_singleton.mp hshell
        exact (h.shell connection command hstatus).2
    · cases hshell

/-- `system` is called once for a connection. -/
theorem nodup_given (h : Inv host s) : (s.given.map Prod.fst).Nodup := by
  have hall := h.conserved.nodup_iff.mpr List.nodup_range
  have hfirst := List.nodup_append.mp (List.nodup_append.mp hall).1
  unfold given
  rw [List.map_append]
  refine List.nodup_append.mpr ⟨hfirst.1, ?_, ?_⟩
  · split
    · exact List.nodup_singleton _
    · exact List.nodup_nil
  · intro connection hdone other hshell
    split at hshell
    · next c command hstatus =>
        obtain rfl : other = c := by simpa using hshell
        exact hfirst.2.2 connection hdone other (h.shell _ command hstatus).1
    · cases hshell

end Inv

/-- By induction over the events, the invariant holds in every reachable
state. -/
theorem Reachable.inv (h : Reachable host s) : Inv host s :=
  Reaches.invariant (Inv host) (fun _ _ _ hinv hstep => hinv.step hstep) h Inv.create

end Server

end Sockets
