import HujiOS.Sockets.CommandLine
import HujiOS.Sockets.Serving

/-!
# From the command line to the server's shell

The client's `main` and `runInServer` and the server's loop together.  A client
process puts its arguments into a line, takes the line apart, and writes what it
has put together again; the server runs what it reads.  On the way the white space
between the words is lost, and nothing else.
-/

namespace Sockets

open Runs Words

/-- A process of the program and the results of its calls of `write`. -/
structure ClientProcess where
  argv : List (List UInt8)
  writes : List (Option Nat)

namespace ClientProcess

/-- The port that the process connects to and the text that it sends, if it is a
client. -/
def request (process : ClientProcess) : Option (Int × List UInt8) :=
  match main process.argv with
  | .error _ => none
  | .ok started =>
      match started.action with
      | .turnServerOn _ => none
      | .toServer port cmdToRun => some (port, cmdToRun)

/-- The bytes that the process writes to its connection. -/
def sent (process : ClientProcess) : List UInt8 :=
  match process.request with
  | none => []
  | some (_, cmdToRun) => (runInServer process.writes cmdToRun).2.sent

end ClientProcess

/-- The words of the arguments, a space behind each. -/
def typedText (args : List (List UInt8)) : List UInt8 :=
  terminated space (args.flatMap (words isSpace))

variable {program role port : List UInt8} {args : List (List UInt8)} {process : ClientProcess}

/-! ## The client's side -/

/-- **What a client sends.**  Whatever the white space in the arguments, it is the
words of the arguments from the fourth on. -/
theorem main_client (hport : IsPort port)
    (htwo : (words isSpace program).length + (words isSpace role).length = 2)
    (hwords : args.flatMap (words isSpace) ≠ []) :
    ∃ started, main (program :: role :: port :: args) = .ok started ∧
      started.IsClientCommand (decimal port) (typedText args) := by
  have hline : words isSpace (terminated space (program :: role :: port :: args)) =
      (words isSpace program ++ words isSpace role) ++ port :: args.flatMap (words isSpace) :=
    words_cmdLine hport
  obtain ⟨a, b, hfront⟩ := List.length_eq_two.mp (List.length_append.trans htwo)
  obtain ⟨t, ts, hback⟩ := List.exists_cons_of_ne_nil hwords
  rw [hfront, hback] at hline
  unfold main typedText
  rw [cmdLine_eq, hback]
  exact Command.create_words hline (stoi_port hport)

/-- **Without a word to run** the process is a server on that port. -/
theorem main_server (hport : IsPort port)
    (htwo : (words isSpace program).length + (words isSpace role).length = 2)
    (hwords : args.flatMap (words isSpace) = []) :
    ∃ started, main (program :: role :: port :: args) = .ok started ∧
      started.action = .turnServerOn (decimal port) := by
  have hline : words isSpace (terminated space (program :: role :: port :: args)) =
      (words isSpace program ++ words isSpace role) ++ port :: args.flatMap (words isSpace) :=
    words_cmdLine hport
  obtain ⟨a, b, hfront⟩ := List.length_eq_two.mp (List.length_append.trans htwo)
  rw [hfront, hwords] at hline
  have hargs := Command.commandToArgs_words hline
  rw [stoi_port hport] at hargs
  unfold main
  rw [cmdLine_eq]
  unfold Command.create
  rw [hargs]
  exact ⟨_, rfl, rfl⟩

/-- A client process whose writes get on: it sends `typedText args` to `port`. -/
structure ClientProcess.Types (process : ClientProcess) (port : List UInt8)
    (args : List (List UInt8)) : Prop where
  argv : ∃ program role, process.argv = program :: role :: port :: args ∧
    (words isSpace program).length + (words isSpace role).length = 2
  someWord : args.flatMap (words isSpace) ≠ []
  /-- arguments are C strings -/
  noNul : ∀ arg ∈ args, 0 ∉ arg
  length_le : (typedText args).length ≤ 255
  writes : ∃ counts : List Nat, process.writes = counts.map some ∧ (∀ n ∈ counts, 0 < n) ∧
    (typedText args).length ≤ counts.length

/-- A word has no element that the list has not. -/
theorem mem_of_mem_words {l w : List UInt8} {x : UInt8} (hw : w ∈ words isSpace l) (hx : x ∈ w) :
    x ∈ l := by
  induction l using cut_induction (p := isSpace) with
  | free v hv =>
      rw [words_of_free hv] at hw
      split at hw
      · cases hw
      · exact List.mem_singleton.mp hw ▸ hx
  | cut v sep rest hv hsep ih =>
      rw [words_append_sep hsep, words_of_free hv] at hw
      rcases List.mem_append.mp hw with hfirst | hlater
      · split at hfirst
        · cases hfirst
        · exact List.mem_append_left _ (List.mem_singleton.mp hfirst ▸ hx)
      · exact List.mem_append_right _ (List.mem_cons_of_mem _ (ih hlater))

theorem ClientProcess.Types.noNul_text (h : process.Types port args) : 0 ∉ typedText args := by
  intro hmem
  obtain ⟨w, hw, hzero⟩ := List.mem_flatMap.mp hmem
  rcases List.mem_append.mp hzero with hword | hspace
  · obtain ⟨arg, harg, hwords⟩ := List.mem_flatMap.mp hw
    exact h.noNul arg harg (mem_of_mem_words hwords hword)
  · exact absurd (List.mem_singleton.mp hspace) (by decide)

theorem ClientProcess.Types.text_ne_nil (h : process.Types port args) : typedText args ≠ [] := by
  obtain ⟨t, ts, hwords⟩ := List.exists_cons_of_ne_nil h.someWord
  unfold typedText
  rw [hwords, terminated_cons]
  simp

/-- The process connects to the port that was typed, and all of the text goes out. -/
theorem ClientProcess.Types.sends (h : process.Types port args) (hport : IsPort port) :
    process.request = some (↑(decimal port), typedText args) ∧
      process.sent = typedText args := by
  obtain ⟨program, role, hargv, htwo⟩ := h.argv
  obtain ⟨started, hmain, hclient⟩ := main_client hport htwo h.someWord
  have hrequest : process.request = some (↑(decimal port), typedText args) := by
    unfold request
    rw [hargv, hmain]
    dsimp only
    rw [hclient.action_eq]
  refine ⟨hrequest, ?_⟩
  obtain ⟨counts, hwrites, hpos, hmany⟩ := h.writes
  have hlength := h.length_le
  unfold sent
  rw [hrequest, hwrites]
  exact (runInServer_sent hpos (by omega) hmany).2

/-! ## Clients and server -/

/-- The server was started for the port that the clients type, what arrives on a
connection is what its client writes, clients have addresses, and the server's reads
get on. -/
structure Session (host : Host) (server : List (List UInt8)) (port : List UInt8)
    (clients : Nat → ClientProcess) (args : Nat → List (List UInt8)) : Prop where
  isPort : IsPort port
  server : ∃ program role, server = [program, role, port] ∧
    (words isSpace program).length + (words isSpace role).length = 2
  types : ∀ n, (clients n).Types port (args n)
  stream : ∀ n, (host.peers n).stream = (clients n).sent
  hasName : ∀ n, (host.peers n).hasName = true
  reads : ∀ n, ∃ counts : List Nat, (host.peers n).reads = counts.map some ∧
    (∀ k ∈ counts, 0 < k) ∧ (typedText (args n)).length < counts.length

/-- What a client types is what its connection sends. -/
theorem Session.peer_sends {host : Host} {server : List (List UInt8)}
    {clients : Nat → ClientProcess} {args : Nat → List (List UInt8)}
    (h : Session host server port clients args) (n : Nat) :
    (host.peers n).Sends (typedText (args n)) where
  stream := (h.stream n).trans ((h.types n).sends h.isPort).2
  noNul := (h.types n).noNul_text
  length_le := (h.types n).length_le
  nonempty := (h.types n).text_ne_nil
  hasName := h.hasName n
  reads := h.reads n

namespace Server

/-- **What is typed is run.**  The server process serves the port that was typed, and
each client process connects to it.  In every reachable state of the server's loop the
shell was given nothing but the words of the clients' arguments with a space behind
each, once for a connection, and the server does not wait for a client.  If the commands
end, no command is left in the shell, and a round that finds no connection waiting and
all clients ready has run the command of every client that ever connected. -/
theorem typed_commands_run {host : Host} {server : List (List UInt8)} {port : List UInt8}
    {clients : Nat → ClientProcess} {args : Nat → List (List UInt8)} {s : Server}
    (hsession : Session host server port clients args) (h : Reachable host s) :
    ((∃ started, main server = .ok started ∧ started.action = .turnServerOn (decimal port)) ∧
      ∀ n, (clients n).request = some (↑(decimal port), typedText (args n))) ∧
    (∀ e ∈ s.given, e.2 = typedText (args e.1)) ∧ (s.given.map Prod.fst).Nodup ∧
    s.status ≠ .blocked ∧
    ((∀ n, (host.peers n).ends = true) → s.given = s.executed ∧
      ∀ ready input accepts t, step host s (.round (some ready) input accepts) = some t →
        s.Fits host → s.backlog = [] → (∀ client ∈ s.clientSockets, client.fd ∈ ready) →
        t.executed.Perm ((List.range t.arrived).map fun n => (n, typedText (args n)))) := by
  have hread : ∀ n, host.outcome n = .returned :=
    fun n => (Host.handle_sends (hsession.peer_sends n)).1
  have hcommand : ∀ n, host.command n = typedText (args n) :=
    fun n => (Host.handle_sends (hsession.peer_sends n)).2
  refine ⟨⟨?_, fun n => ((hsession.types n).sends hsession.isPort).1⟩,
    fun e he => (h.inv.ran_given e he).2.trans (hcommand e.1), h.inv.nodup_given,
    h.not_blocked hread, fun hends => ?_⟩
  · obtain ⟨program, role, hargv, htwo⟩ := hsession.server
    rw [hargv]
    exact main_server hsession.isPort htwo rfl
  · have hserve : ∀ n, host.serve n = .running :=
      fun n => Host.serve_eq_running (hread n) (hends n)
    refine ⟨h.given_eq hserve, ?_⟩
    intro ready input accepts t hstep hfits hbacklog hready
    simpa only [hcommand] using round_serves_all h hserve hstep hfits hbacklog hready

/-- `sockets client 80 ' ls' '' '-l'`, written in two parts. -/
def lsProcess : ClientProcess where
  argv := [[115, 111, 99, 107, 101, 116, 115], [99, 108, 105, 101, 110, 116], [56, 48],
    [32, 108, 115], [], [45, 108]]
  writes := [some 1, some 9, some 1, some 1, some 1, some 1]

/-- Such clients connect to `sockets server 80`. -/
def typedHost : Host :=
  { lsHost with peers := fun _ => ⟨lsProcess.sent, [some 2, some 9, some 1, some 1, some 1, some 1,
      some 1], fun _ => 0, true, true⟩ }

theorem typedHost_session : Session typedHost
    [[115, 111, 99, 107, 101, 116, 115], [115, 101, 114, 118, 101, 114], [56, 48]] [56, 48]
    (fun _ => lsProcess) (fun _ => [[32, 108, 115], [], [45, 108]]) where
  isPort := by unfold IsPort; decide +kernel
  server := ⟨_, _, rfl, by decide +kernel⟩
  types := fun _ =>
    { argv := ⟨_, _, rfl, by decide +kernel⟩
      someWord := by decide +kernel
      noNul := by decide
      length_le := by decide +kernel
      writes := ⟨[1, 9, 1, 1, 1, 1], rfl, by decide, by decide +kernel⟩ }
  stream := fun _ => rfl
  hasName := fun _ => rfl
  reads := fun _ => ⟨[2, 9, 1, 1, 1, 1, 1], rfl, by decide, by decide +kernel⟩

/-- Two of them connect; the shell is given `ls -l ` for each. -/
theorem typed_commands_run_ls : ∃ s t,
    run (step typedHost) (create typedHost) (lsEvents.take 4) = some s ∧
      step typedHost s (.round (some {4, 5}) [] true) = some t ∧
      t.executed.Perm [(0, [108, 115, 32, 45, 108, 32]), (1, [108, 115, 32, 45, 108, 32])] := by
  obtain ⟨s, t, hrun, hstep, hfits, hbacklog, hfds, harrived⟩ : ∃ s t,
      run (step typedHost) (create typedHost) (lsEvents.take 4) = some s ∧
        step typedHost s (.round (some {4, 5}) [] true) = some t ∧ s.Fits typedHost ∧
        s.backlog = [] ∧ s.clientSockets = [⟨4, 0⟩, ⟨5, 1⟩] ∧ t.arrived = 2 :=
    ⟨_, _, rfl, rfl, by decide, rfl, rfl, rfl⟩
  obtain ⟨_, _, _, _, hends⟩ := typed_commands_run (s := s) typedHost_session ⟨_, hrun⟩
  have hperm := (hends fun _ => rfl).2 _ _ _ _ hstep hfits hbacklog (by rw [hfds]; decide)
  rw [harrived] at hperm
  refine ⟨s, t, hrun, hstep, hperm.trans (List.Perm.of_eq ?_)⟩
  decide +kernel

end Server

end Sockets
