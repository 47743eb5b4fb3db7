import HujiOS.Words
import HujiOS.RadixDigits
import HujiOS.MachineInt

/-!
# The command line of the sockets program

`main` of `sockets.cpp` puts the arguments behind one another, a space behind
each, and `Command` of `command.h` takes the line apart at white space.  The
third word is the port, the words behind it are put together again, and the
number of words alone tells a server from a client.

Where an argument holds no word, or two, the words are not the arguments; and
the command is put together with single spaces, whatever stood between its words.
-/

namespace Sockets

open MachineInt RadixDigits Words

/-- White space in the classic locale. -/
def isSpace (c : UInt8) : Bool := c == 32 || (9 ≤ c && c ≤ 13)

/-- `'0'` to `'9'`. -/
def isDigit (c : UInt8) : Bool := 48 ≤ c && c ≤ 57

/-- `' '` -/
def space : UInt8 := 32

/-- The number that decimal digits stand for. -/
def decimal (text : List UInt8) : Nat := ofDigits 10 (text.map fun c => c.toNat - 48)

/-- The exceptions of `std::stoi`. -/
inductive StoiError
  | invalidArgument
  | outOfRange
  deriving DecidableEq, Repr

/-- `std::stoi`: white space, a sign, and as many digits as there are; what
follows them is ignored. -/
def stoi (text : List UInt8) : Except StoiError Int :=
  let text := text.dropWhile isSpace
  let negative := text.head? = some 45
  let text := if negative ∨ text.head? = some 43 then text.tail else text
  let digits := text.takeWhile isDigit
  let value : Int := if negative then -(decimal digits : Int) else decimal digits
  if digits = [] then .error .invalidArgument
  else if value < intMin ∨ intMax < value then .error .outOfRange
  else .ok value

/-- `numOfArgs` counts the words of a line, which the system keeps far below
`INT_MAX`, so it is a number here. -/
structure Command where
  cmdLine : List UInt8
  numOfArgs : Nat
  port : Int
  cmdToRun : List UInt8
  deriving DecidableEq, Repr

/-- What the constructor of `Command` runs last. -/
inductive Action
  | turnServerOn (port : Int)
  | toServer (port : Int) (cmdToRun : List UInt8)
  deriving DecidableEq, Repr

/-- A `Command` once it is constructed, with what it printed as an error. -/
structure Started where
  command : Command
  cerr : Option String
  action : Action
  deriving DecidableEq, Repr

namespace Command

/-- The members before the constructor's body. -/
def init (cmdLine : List UInt8) : Command :=
  { cmdLine := cmdLine, numOfArgs := 0, port := 0, cmdToRun := [] }

/-- `isClientArgs`. -/
def isClientArgs (s : Command) : Bool := s.numOfArgs > 3

/-- `isServerArgs`. -/
def isServerArgs (s : Command) : Bool := s.numOfArgs == 3

/-- A round of `commandToArgs`, which read `buf`. -/
def addArg (s : Command) (buf : List UInt8) : Except StoiError Command :=
  if s.numOfArgs = 2 then
    match stoi buf with
    | .error e => .error e
    | .ok port => .ok { s with port := port, numOfArgs := s.numOfArgs + 1 }
  else if s.numOfArgs ≥ 3 then
    .ok { s with cmdToRun := s.cmdToRun ++ (buf ++ [space]), numOfArgs := s.numOfArgs + 1 }
  else .ok { s with numOfArgs := s.numOfArgs + 1 }

/-- The loop of `commandToArgs` on what is left of the stream. -/
def addArgs : Nat → List UInt8 → Command → Except StoiError Command
  | 0, _, s => .ok s
  | rounds + 1, ss, s =>
      -- `ss >> buf`
      match nextWord isSpace ss with
      | none => .ok s
      | some (buf, ss) =>
          match s.addArg buf with
          | .error e => .error e
          | .ok s => addArgs rounds ss s

/-- Every round takes a character of the line, so there are rounds enough. -/
def commandToArgs (s : Command) : Except StoiError Command :=
  addArgs (s.cmdLine.length + 1) s.cmdLine s

/-- The constructor. -/
def create (cmdLine : List UInt8) : Except StoiError Started :=
  match (init cmdLine).commandToArgs with
  | .error e => .error e
  | .ok s =>
      .ok { command := s
            cerr := if !(s.isServerArgs || s.isClientArgs) then some "Bad usage" else none
            action :=
              if s.isServerArgs then .turnServerOn s.port else .toServer s.port s.cmdToRun }

end Command

/-- `main`: the line is put together argument by argument. -/
def main (argv : List (List UInt8)) : Except StoiError Started :=
  Command.create (argv.foldl (fun cmdLine arg => cmdLine ++ (arg ++ [space])) [])

/-- A port number in decimal digits. -/
def IsPort (text : List UInt8) : Prop :=
  text ≠ [] ∧ (∀ c ∈ text, isDigit c = true) ∧ decimal text < 2 ^ 16

/-- The command is a client's, for this port and with this text, and it is on its
way to the server. -/
structure Started.IsClientCommand (s : Started) (port : Int) (cmdToRun : List UInt8) : Prop where
  client : s.command.isClientArgs = true
  not_server : s.command.isServerArgs = false
  port_eq : s.command.port = port
  cmdToRun_eq : s.command.cmdToRun = cmdToRun
  action_eq : s.action = .toServer port cmdToRun

variable {program role port : List UInt8} {args : List (List UInt8)}

/-! ## The words of the line -/

theorem isSpace_space : isSpace space = true := by decide

theorem not_isSpace_of_isDigit {c : UInt8} (h : isDigit c = true) : isSpace c = false := by
  unfold isDigit at h
  unfold isSpace
  simp only [Bool.and_eq_true, decide_eq_true_eq, UInt8.le_iff_toNat_le] at h
  have hspace : c ≠ 32 := by
    intro heq
    rw [heq] at h
    exact absurd h.1 (by decide)
  have hcontrol : ¬ c ≤ 13 := by
    rw [UInt8.le_iff_toNat_le]
    exact fun hle => absurd (h.1.trans hle) (by decide)
  simp [hspace, hcontrol]

theorem IsPort.isWord (hport : IsPort port) : IsWord isSpace port :=
  ⟨hport.1, fun c hc => not_isSpace_of_isDigit (hport.2.1 c hc)⟩

theorem cmdLine_eq (argv : List (List UInt8)) :
    argv.foldl (fun cmdLine arg => cmdLine ++ (arg ++ [space])) [] = terminated space argv := by
  induction argv using List.reverseRecOn with
  | nil => rfl
  | append_singleton argv arg ih =>
      rw [List.foldl_append, List.foldl_cons, List.foldl_nil, ih, terminated_append]
      simp

/-- The port is one word; the others count as many as they have. -/
theorem words_cmdLine (hport : IsPort port) :
    words isSpace (terminated space (program :: role :: port :: args)) =
      (words isSpace program ++ words isSpace role) ++ port :: args.flatMap (words isSpace) := by
  rw [words_terminated isSpace_space, List.flatMap_cons, List.flatMap_cons, List.flatMap_cons,
    words_eq_singleton hport.isWord, List.append_assoc]
  rfl

/-- A port number is read as it is. -/
theorem stoi_port (hport : IsPort port) : stoi port = .ok (decimal port) := by
  obtain ⟨hne, hdigits, hlt⟩ := hport
  have hskip : port.dropWhile isSpace = port := by
    cases port with
    | nil => rfl
    | cons c port =>
        have hc := not_isSpace_of_isDigit (hdigits c List.mem_cons_self)
        exact List.dropWhile_cons_of_neg (by simp [hc])
  have hsign : ∀ sign : UInt8, isDigit sign = false → port.head? ≠ some sign := by
    intro sign hsign hhead
    have hdigit := hdigits sign (List.mem_of_head? hhead)
    exact absurd (hdigit.symm.trans hsign) (by decide)
  have htake : port.takeWhile isDigit = port := List.takeWhile_eq_self_iff.mpr hdigits
  have hmax : ¬ ((decimal port : Int) < intMin ∨ intMax < (decimal port : Int)) := by
    unfold intMin intMax
    omega
  unfold stoi
  simp only [hskip, hsign 45 (by decide), hsign 43 (by decide), htake, or_self, if_false,
    if_neg hne, if_neg hmax]

/-! ## Reading the words -/

namespace Command

variable {ss line a b p : List UInt8} {ts : List (List UInt8)} {s : Command}

/-- The loop goes through the words of the stream. -/
theorem addArgs_eq (rounds : Nat) (hrounds : ss.length < rounds) (s : Command) :
    addArgs rounds ss s = (words isSpace ss).foldlM addArg s := by
  induction rounds generalizing ss s with
  | zero => exact absurd hrounds (Nat.not_lt_zero _)
  | succ rounds ih =>
      rcases nextWord_spec isSpace ss with ⟨hnext, hwords⟩ | ⟨w, r, hnext, hwords, hlt⟩
      · rw [addArgs, hnext, hwords]
        rfl
      · rw [addArgs, hnext, hwords, List.foldlM_cons]
        dsimp only
        cases hadd : s.addArg w with
        | error e => rfl
        | ok t => exact ih (by omega) t

/-- The words behind the third are put together. -/
theorem foldlM_addArg (hargs : 3 ≤ s.numOfArgs) (ts : List (List UInt8)) :
    ts.foldlM addArg s = .ok { s with
      numOfArgs := s.numOfArgs + ts.length
      cmdToRun := s.cmdToRun ++ terminated space ts } := by
  induction ts generalizing s with
  | nil => simp [pure, Except.pure]
  | cons t ts ih =>
      have hadd : s.addArg t = .ok { s with
          cmdToRun := s.cmdToRun ++ (t ++ [space]), numOfArgs := s.numOfArgs + 1 } := by
        unfold addArg
        rw [if_neg (by omega), if_pos hargs]
      rw [List.foldlM_cons, hadd]
      refine (ih (Nat.le_succ_of_le hargs)).trans ?_
      simp [Nat.add_assoc, Nat.add_comm 1]

/-- A line of at least three words. -/
theorem commandToArgs_words (hwords : words isSpace line = a :: b :: p :: ts) :
    (init line).commandToArgs = (stoi p).map fun port =>
      { cmdLine := line, numOfArgs := 3 + ts.length, port := port
        cmdToRun := terminated space ts } := by
  unfold commandToArgs
  rw [addArgs_eq _ (Nat.lt_succ_self _)]
  change (words isSpace line).foldlM addArg (init line) = _
  rw [hwords]
  cases hport : stoi p with
  | error e => simp [init, addArg, hport, bind, Except.bind, Except.map]
  | ok port =>
      simp only [List.foldlM_cons, init, addArg, hport, bind, Except.bind, Except.map]
      simp [foldlM_addArg]

/-- A line of fewer words. -/
theorem commandToArgs_few (hwords : (words isSpace line).length < 3) :
    (init line).commandToArgs =
      .ok { init line with numOfArgs := (words isSpace line).length } := by
  unfold commandToArgs
  rw [addArgs_eq _ (Nat.lt_succ_self _)]
  change (words isSpace line).foldlM addArg (init line) = _
  generalize words isSpace line = ws at hwords
  rcases ws with _ | ⟨a, _ | ⟨b, _ | ⟨p, ts⟩⟩⟩
  · rfl
  · rfl
  · rfl
  · rw [List.length_cons, List.length_cons, List.length_cons] at hwords
    omega

/-- A client's command has more than three words. -/
theorem create_client {started : Started} (h : create line = .ok started)
    (hclient : started.command.isClientArgs = true) :
    ∃ a b p t ts, words isSpace line = a :: b :: p :: t :: ts ∧
      started.command.cmdToRun = terminated space (t :: ts) := by
  have hcount : 3 < started.command.numOfArgs := by simpa [isClientArgs] using hclient
  unfold create at h
  rcases hwords : words isSpace line with _ | ⟨a, _ | ⟨b, _ | ⟨p, ts⟩⟩⟩
  case cons.cons.cons =>
    rw [commandToArgs_words hwords] at h
    cases hport : stoi p with
    | error e => simp [hport, Except.map] at h
    | ok port =>
        simp only [hport, Except.map, Except.ok.injEq] at h
        subst h
        cases ts with
        | nil => exact absurd hcount (by simp)
        | cons t ts => exact ⟨a, b, p, t, ts, rfl, rfl⟩
  all_goals
    rw [commandToArgs_few (by simp [hwords])] at h
    simp only [Except.ok.injEq] at h
    subst h
    simp [hwords] at hcount

/-- A line of more than three words is a client's. -/
theorem create_words {t : List UInt8} (hwords : words isSpace line = a :: b :: p :: t :: ts)
    {port : Int} (hport : stoi p = .ok port) : ∃ started, create line = .ok started ∧
      started.IsClientCommand port (terminated space (t :: ts)) := by
  have hargs := commandToArgs_words hwords
  rw [hport] at hargs
  have hserver : (3 + (t :: ts).length == 3) = false := by simp
  have hclient : (3 < 3 + (t :: ts).length) := by simp
  unfold create
  rw [hargs]
  refine ⟨_, rfl, decide_eq_true hclient, hserver, rfl, rfl, ?_⟩
  exact if_neg (by simp [isServerArgs])

end Command

/-! ## What survives -/

/-- **When a command survives the command line.**  For every four or more
arguments of which the third is a port number: what is constructed is a client's
command for that port, and its text is the arguments from the fourth on with a
space behind each, exactly if the first two arguments have two words between them
and each of the others is one or more words with a single space between any two
and no other white space. -/
theorem command_survives_iff (hport : IsPort port) (hargs : args ≠ []) :
    (∃ started, main (program :: role :: port :: args) = .ok started ∧
        started.IsClientCommand (decimal port) (terminated space args)) ↔
      (words isSpace program).length + (words isSpace role).length = 2 ∧
        ∀ arg ∈ args, SingleSpaced isSpace space arg := by
  have hline : words isSpace (terminated space (program :: role :: port :: args)) =
      (words isSpace program ++ words isSpace role) ++ port :: args.flatMap (words isSpace) :=
    words_cmdLine hport
  have hmain : main (program :: role :: port :: args) =
      Command.create (terminated space (program :: role :: port :: args)) := by
    unfold main
    rw [cmdLine_eq]
  rw [hmain, ← terminated_words_iff isSpace_space]
  constructor
  · intro hsurvives
    obtain ⟨started, hcreate, hcommand⟩ := hsurvives
    obtain ⟨a, b, p, t, ts, hwords, htext⟩ := Command.create_client hcreate hcommand.client
    have hisWord : ∀ w ∈ t :: ts, IsWord isSpace w := by
      intro w hw
      refine isWord_of_mem_words (l := terminated space (program :: role :: port :: args)) ?_
      rw [hwords]
      exact List.mem_cons_of_mem a (List.mem_cons_of_mem b (List.mem_cons_of_mem p hw))
    -- the words of the text are those of the arguments
    have htexts : terminated space (t :: ts) = terminated space args :=
      htext.symm.trans hcommand.cmdToRun_eq
    have hback : t :: ts = args.flatMap (words isSpace) := by
      rw [← words_terminated_words isSpace_space hisWord, htexts, words_terminated isSpace_space]
    have hlength := congrArg List.length (hwords.symm.trans hline)
    rw [← hback] at hlength
    simp only [List.length_cons, List.length_append] at hlength
    refine ⟨by omega, ?_⟩
    rw [← hback, htexts]
  · intro hwords
    obtain ⟨htwo, htext⟩ := hwords
    obtain ⟨a, b, hfront⟩ : ∃ a b, words isSpace program ++ words isSpace role = [a, b] :=
      List.length_eq_two.mp (List.length_append.trans htwo)
    obtain ⟨t, ts, hback⟩ : ∃ t ts, args.flatMap (words isSpace) = t :: ts := by
      apply List.exists_cons_of_ne_nil
      intro hnil
      obtain ⟨arg, rest, rfl⟩ := List.exists_cons_of_ne_nil hargs
      rw [hnil] at htext
      simp at htext
    rw [hfront, hback] at hline
    rw [← htext, hback]
    exact Command.create_words hline (stoi_port hport)

/-- `sockets client 8080 'ls -l' /tmp` -/
theorem command_survives_iff_ls : ∃ started,
    main [[115, 111, 99, 107, 101, 116, 115], [99, 108, 105, 101, 110, 116], [56, 48, 56, 48],
      [108, 115, 32, 45, 108], [47, 116, 109, 112]] = .ok started ∧
    started.IsClientCommand (decimal [56, 48, 56, 48])
      (terminated space [[108, 115, 32, 45, 108], [47, 116, 109, 112]]) := by
  have hport : IsPort [56, 48, 56, 48] := by unfold IsPort; decide +kernel
  refine (command_survives_iff hport (by decide)).mpr ⟨by decide +kernel, fun arg harg => ?_⟩
  rw [singleSpaced_iff isSpace_space]
  revert arg
  decide +kernel

/-- `sockets client 8080 ''` has three words, so the client becomes a server. -/
theorem empty_argument_starts_server :
    IsPort [56, 48, 56, 48] ∧
      main [[115, 111, 99, 107, 101, 116, 115], [99, 108, 105, 101, 110, 116], [56, 48, 56, 48],
        []] = .ok
        { command :=
            { cmdLine := terminated space [[115, 111, 99, 107, 101, 116, 115],
                [99, 108, 105, 101, 110, 116], [56, 48, 56, 48], []]
              numOfArgs := 3, port := 8080, cmdToRun := [] }
          cerr := none
          action := .turnServerOn 8080 } ∧
      ¬ ∃ started,
        main [[115, 111, 99, 107, 101, 116, 115], [99, 108, 105, 101, 110, 116], [56, 48, 56, 48],
          []] = .ok started ∧
        started.IsClientCommand (decimal [56, 48, 56, 48]) (terminated space [[]]) := by
  have hmain : main [[115, 111, 99, 107, 101, 116, 115], [99, 108, 105, 101, 110, 116],
      [56, 48, 56, 48], []] = .ok
        { command :=
            { cmdLine := terminated space [[115, 111, 99, 107, 101, 116, 115],
                [99, 108, 105, 101, 110, 116], [56, 48, 56, 48], []]
              numOfArgs := 3, port := 8080, cmdToRun := [] }
          cerr := none
          action := .turnServerOn 8080 } := by decide +kernel
  refine ⟨by unfold IsPort; decide +kernel, hmain, ?_⟩
  intro hsurvives
  obtain ⟨started, hstarted, hcommand⟩ := hsurvives
  obtain rfl : _ = started := Except.ok.inj (hmain.symm.trans hstarted)
  exact absurd hcommand.client (by decide)

/-- `sockets client 8080 'a  b'` loses a space. -/
example : (main [[115, 111, 99, 107, 101, 116, 115], [99, 108, 105, 101, 110, 116],
    [56, 48, 56, 48], [97, 32, 32, 98]]).map (fun started => started.action) =
      .ok (.toServer 8080 [97, 32, 98, 32]) := by decide +kernel

end Sockets
