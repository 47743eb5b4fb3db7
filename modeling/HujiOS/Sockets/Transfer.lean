import HujiOS.Sockets.ReadData

/-!
# A command from the client to the server's shell

`writeDataToSocket` on the client's side and `readDataFromSocket` on the
server's.  What `write` accepts in each call and what `read` returns in each
are up to the system; together they cut the command in two unrelated ways.
The bytes that the writes accepted, in order, are the stream that the reads
take apart, and the end of the stream follows it.

The terminator is written behind every chunk that is read, so it is in its
place as soon as there is a chunk.  An empty command brings none: the buffer
keeps what it held, and that is what `system` is given.
-/

namespace Sockets

open MachineInt

/-- A call of `writeDataToSocket` on its way. -/
structure Writing where
  /-- `data`, as an offset from the pointer that was passed -/
  data : Nat
  len : Nat
  /-- the bytes that `write` accepted so far -/
  sent : List UInt8
  deriving Repr

/-- The call for `len` bytes. -/
def Writing.start (len : Nat) : Writing := { data := 0, len := len, sent := [] }

/-- The bytes that `write` accepts when it returns `count`, which is at most
the number offered. -/
def write (memory : List UInt8) (data offered count : Nat) : List UInt8 :=
  (memory.drop data).take (min count offered)

/-- The counts are the results of the calls of `write`, `none` for -1. -/
def writeDataToSocket (counts : List (Option Nat)) (memory : List UInt8) (s : Writing) :
    Outcome × Writing :=
  if s.len > 0 then
    match counts with
    | [] => (.waiting, s)
    | none :: _ => (.panicked, s)
    | some count :: counts =>
        let bytes := write memory s.data s.len count
        let res := bytes.length
        if res = 0 then (.panicked, s)
        else
          writeDataToSocket counts memory
            { data := s.data + res, len := toUInt64 (s.len - res), sent := s.sent ++ bytes }
  else (.returned, s)

/-- `Client::runInServer`, once connected: the command is its characters, and
its length is asked of the string. -/
def runInServer (counts : List (Option Nat)) (command : List UInt8) : Outcome × Writing :=
  writeDataToSocket counts command (.start command.length)

/-- The C string in a buffer of `size` bytes. -/
def cString (size : Nat) (memory : Nat → UInt8) : List UInt8 :=
  ((List.range size).map memory).takeWhile (· ≠ 0)

/-- `Server::handleClient`: the outcome of reading into `cmdToRun`, the memory
of that buffer, and the string that `system` is given. -/
def handleClient (counts : List (Option Nat)) (stream : List UInt8) (cmdToRun : Nat → UInt8) :
    Outcome × (Nat → UInt8) × List UInt8 :=
  let (outcome, s) := readDataFromSocket counts stream (.start maxBuf cmdToRun)
  (outcome, s.memory, cString maxBuf s.memory)

variable {command stream : List UInt8} {cmdToRun : Nat → UInt8}

/-! ## The client's side -/

/-- With nothing left the call returns, and all of the command has gone out. -/
theorem writeDataToSocket_done {counts : List (Option Nat)} {s : Writing}
    (hroom : s.data + s.len = command.length) (hdone : s.len = 0) :
    ∃ t, writeDataToSocket counts command s = (.returned, t) ∧
      t.sent = s.sent ++ command.drop s.data := by
  refine ⟨s, ?_, ?_⟩
  · rw [writeDataToSocket.eq_def]
    exact if_neg (by omega)
  · rw [List.drop_of_length_le (by omega), List.append_nil]

/-- A round of the loop in which `write` accepts something. -/
theorem writeDataToSocket_round {counts : List (Option Nat)} {s : Writing} {count : Nat}
    (hroom : s.data + s.len = command.length) (hlen : command.length < 2 ^ 64)
    (hpos : 0 < s.len) (hcount : 0 < count) :
    writeDataToSocket (some count :: counts) command s = writeDataToSocket counts command
      { data := s.data + min count s.len, len := s.len - min count s.len
        sent := s.sent ++ write command s.data s.len count } := by
  have hbytes : (write command s.data s.len count).length = min count s.len := by
    simp only [write, List.length_take, List.length_drop]
    omega
  have hrest : toUInt64 ((s.len : Int) - (min count s.len : Nat)) = s.len - min count s.len := by
    unfold toUInt64
    omega
  rw [writeDataToSocket, if_pos hpos]
  simp only [hbytes, hrest]
  exact if_neg (by omega)

/-- Every write accepts the next bytes of the command. -/
theorem writeDataToSocket_returned {counts : List Nat} (hpos : ∀ n ∈ counts, 0 < n)
    (hlen : command.length < 2 ^ 64) {s : Writing} (hroom : s.data + s.len = command.length)
    (hcounts : s.len ≤ counts.length) :
    ∃ t, writeDataToSocket (counts.map some) command s = (.returned, t) ∧
      t.sent = s.sent ++ command.drop s.data := by
  induction counts generalizing s with
  | nil => exact writeDataToSocket_done hroom (Nat.le_zero.mp hcounts)
  | cons count counts ih =>
      by_cases hdone : s.len = 0
      · exact writeDataToSocket_done hroom hdone
      · have hcount := hpos count List.mem_cons_self
        rw [List.length_cons] at hcounts
        obtain ⟨t, hrun, hsent⟩ := ih (fun n hn => hpos n (List.mem_cons_of_mem count hn))
          (s := { data := s.data + min count s.len, len := s.len - min count s.len,
                  sent := s.sent ++ write command s.data s.len count })
          (by dsimp only; omega) (by dsimp only; omega)
        refine ⟨t, ?_, ?_⟩
        · rw [List.map_cons, writeDataToSocket_round hroom hlen (Nat.pos_of_ne_zero hdone) hcount]
          exact hrun
        · rw [hsent, List.append_assoc]
          simp only [write]
          rw [← List.drop_drop, List.take_append_drop]

/-- The stream is the command, however the writes cut it. -/
theorem runInServer_sent {counts : List Nat} (hpos : ∀ n ∈ counts, 0 < n)
    (hlen : command.length < 2 ^ 64) (hcounts : command.length ≤ counts.length) :
    (runInServer (counts.map some) command).1 = .returned ∧
      (runInServer (counts.map some) command).2.sent = command := by
  obtain ⟨t, hrun, hsent⟩ := writeDataToSocket_returned hpos hlen
    (s := .start command.length) (Nat.zero_add _) hcounts
  unfold runInServer
  rw [hrun]
  exact ⟨rfl, hsent⟩

/-! ## The server's side -/

/-- A part of the command has come in: it is in the buffer, and a terminator
is behind it unless nothing has come yet. -/
structure Received (command : List UInt8) (cmdToRun : Nat → UInt8) (stream : List UInt8)
    (s : Reading) : Prop where
  data_le : s.data ≤ command.length
  room : s.data + s.len = maxBuf
  rest : stream = command.drop s.data
  filled : ∀ i < s.data, command[i]? = some (s.memory i)
  ended : s.memory s.data = if s.data = 0 then cmdToRun 0 else 0

namespace Received

variable {s : Reading}

theorem start (command : List UInt8) (cmdToRun : Nat → UInt8) :
    Received command cmdToRun command (.start maxBuf cmdToRun) where
  data_le := Nat.zero_le _
  room := Nat.zero_add _
  rest := rfl
  filled := fun _ hi => absurd hi (Nat.not_lt_zero _)
  ended := rfl

theorem guarded (h : Received command cmdToRun stream s) :
    Received command cmdToRun stream s.guarded :=
  ⟨h.data_le, h.room, h.rest, h.filled, h.ended⟩

/-- What is still to come. -/
theorem length_rest (h : Received command cmdToRun stream s) :
    stream.length = command.length - s.data := by
  rw [h.rest, List.length_drop]

/-- A round takes in the next bytes and puts the terminator behind them. -/
theorem round (h : Received command cmdToRun stream s) {count : Nat}
    (hres : (read stream s.len count).length ≠ 0) :
    Received command cmdToRun (stream.drop (read stream s.len count).length)
      (s.round (read stream s.len count)) := by
  have hbytes := length_read stream s.len count
  have hlen := h.length_rest
  have hroom := h.room
  have hle : (read stream s.len count).length ≤ s.len := by omega
  have hgot : ∀ i < (read stream s.len count).length,
      (read stream s.len count)[i]? = command[s.data + i]? := by
    intro i hi
    unfold read at hi ⊢
    rw [List.getElem?_take_of_lt (by rw [List.length_take] at hi; omega), h.rest,
      List.getElem?_drop]
  have hnext : (s.round (read stream s.len count)).len =
      s.len - (read stream s.len count).length := by
    apply Reading.round_len _ hle
    unfold maxBuf at hroom
    omega
  generalize read stream s.len count = bytes at *
  have hmemory : ∀ i, (s.round bytes).memory i =
      if i = s.data + bytes.length then 0
      else if i < s.data then s.memory i else bytes.getD (i - s.data) (s.memory i) := fun _ => rfl
  refine ⟨?_, ?_, ?_, ?_, ?_⟩
  · rw [Reading.round_data]
    omega
  · rw [Reading.round_data, hnext]
    omega
  · rw [h.rest, List.drop_drop, Reading.round_data]
  · intro i hi
    rw [Reading.round_data] at hi
    rw [hmemory, if_neg (by omega)]
    by_cases hold : i < s.data
    · rw [if_pos hold]
      exact h.filled i hold
    · have hnew := hgot (i - s.data) (by omega)
      rw [if_neg hold, List.getD_eq_getElem?_getD, hnew, show s.data + (i - s.data) = i by omega,
        List.getElem?_eq_getElem (by omega), Option.getD_some]
  · rw [hmemory, Reading.round_data, if_pos rfl, if_neg (by omega)]

end Received

/-- **The loop.**  However the stream is cut, the call returns when all of it
has come in. -/
theorem readDataFromSocket_returned {counts : List Nat} (hpos : ∀ n ∈ counts, 0 < n)
    (hshort : command.length < maxBuf) {s : Reading} (h : Received command cmdToRun stream s)
    (hcounts : stream.length < counts.length) :
    ∃ t, readDataFromSocket (counts.map some) stream s = (.returned, t) ∧
      Received command cmdToRun [] t := by
  induction counts generalizing stream s with
  | nil => exact absurd hcounts (Nat.not_lt_zero _)
  | cons count counts ih =>
      have hroom := h.room
      have hrest := h.length_rest
      have hdata := h.data_le
      by_cases hone : s.len = 1
      · have hall : stream = [] := by
          rw [← List.length_eq_zero_iff]
          omega
        exact ⟨s.guarded, readDataFromSocket_one hone, hall ▸ h.guarded⟩
      · have hlen : 2 ≤ s.len := by omega
        have hsize : s.len < 2 ^ 64 := by
          unfold maxBuf at hroom
          omega
        have hbytes := length_read stream s.len count
        have hcount := hpos count List.mem_cons_self
        rw [List.map_cons]
        by_cases hres : (read stream s.len count).length = 0
        · have hall : stream = [] := by
            rw [← List.length_eq_zero_iff]
            omega
          exact ⟨s.guarded, readDataFromSocket_end hlen hsize hres, hall ▸ h.guarded⟩
        · rw [readDataFromSocket_round hlen hsize hres]
          apply ih (fun n hn => hpos n (List.mem_cons_of_mem count hn)) (h.round hres)
          rw [List.length_drop]
          rw [List.length_cons] at hcounts
          omega

/-! ## The command that is run -/

/-- The buffer holds `command` and a terminator behind it. -/
structure HoldsString (memory : Nat → UInt8) (command : List UInt8) : Prop where
  bytes : ∀ i < command.length, command[i]? = some (memory i)
  ended : memory command.length = 0

theorem cString_eq {memory : Nat → UInt8} (h : HoldsString memory command) (hnul : 0 ∉ command)
    {size : Nat} (hfit : command.length < size) : cString size memory = command := by
  have hfront : (List.range command.length).map memory = command := by
    apply List.ext_getElem?
    intro i
    by_cases hi : i < command.length
    · rw [List.getElem?_map, List.getElem?_range hi, h.bytes i hi]
      rfl
    · rw [List.getElem?_eq_none (by simpa using hi), List.getElem?_eq_none (by omega)]
  obtain ⟨rest, rfl⟩ : ∃ rest, size = command.length + (rest + 1) :=
    ⟨size - command.length - 1, by omega⟩
  have hnonzero : ∀ b ∈ command, decide (b ≠ 0) = true := by
    intro b hb
    exact decide_eq_true fun heq => hnul (heq ▸ hb)
  unfold cString
  rw [List.range_add, List.map_append, hfront, List.takeWhile_append_of_pos hnonzero,
    List.range_succ_eq_map]
  simp [h.ended]

/-- The command gets from the client to the shell: both calls return, the
buffer holds it with its terminator, and it is the string that is run. -/
structure CommandArrives (command : List UInt8) (writes reads : List Nat)
    (cmdToRun : Nat → UInt8) : Prop where
  sent : (runInServer (writes.map some) command).1 = .returned
  received : (handleClient (reads.map some) (runInServer (writes.map some) command).2.sent
    cmdToRun).1 = .returned
  held : HoldsString (handleClient (reads.map some)
    (runInServer (writes.map some) command).2.sent cmdToRun).2.1 command
  run : (handleClient (reads.map some)
    (runInServer (writes.map some) command).2.sent cmdToRun).2.2 = command

variable {writes reads : List Nat}

/-- What the server has when the command has come in. -/
theorem handleClient_received (hshort : command.length < maxBuf) (hreads : ∀ n ∈ reads, 0 < n)
    (hmore : command.length < reads.length) (cmdToRun : Nat → UInt8) :
    ∃ memory : Nat → UInt8, handleClient (reads.map some) command cmdToRun =
        (.returned, memory, cString maxBuf memory) ∧
      (∀ i < command.length, command[i]? = some (memory i)) ∧
      memory command.length = if command.length = 0 then cmdToRun 0 else 0 := by
  obtain ⟨t, hrun, ht⟩ := readDataFromSocket_returned hreads hshort
    (Received.start command cmdToRun) hmore
  have hall : t.data = command.length := by
    have hrest := ht.length_rest
    have hle := ht.data_le
    rw [List.length_nil] at hrest
    omega
  refine ⟨t.memory, ?_, hall ▸ ht.filled, hall ▸ ht.ended⟩
  unfold handleClient
  rw [hrun]

/-- **When a command arrives.**  For every command without a NUL that fits the
buffer, every way the writes and the reads cut it and whatever the buffer
held: the shell is given the command exactly if there is a command, or the
buffer started with a NUL already. -/
theorem command_arrives_iff (hnul : 0 ∉ command) (hlen : command.length ≤ 255)
    (hwrites : ∀ n ∈ writes, 0 < n) (hsent : command.length ≤ writes.length)
    (hreads : ∀ n ∈ reads, 0 < n) (hmore : command.length < reads.length)
    (cmdToRun : Nat → UInt8) :
    CommandArrives command writes reads cmdToRun ↔ command ≠ [] ∨ cmdToRun 0 = 0 := by
  have hshort : command.length < maxBuf := Nat.lt_succ_of_le hlen
  obtain ⟨hreturned, hstream⟩ := runInServer_sent hwrites (by omega) hsent
  obtain ⟨memory, hhandle, hbytes, hended⟩ :=
    handleClient_received hshort hreads hmore cmdToRun
  have hended_iff : memory command.length = 0 ↔ command ≠ [] ∨ cmdToRun 0 = 0 := by
    rw [hended]
    by_cases hempty : command.length = 0
    · simp [List.length_eq_zero_iff.mp hempty]
    · have hsome : command ≠ [] := fun heq => hempty (List.length_eq_zero_iff.mpr heq)
      rw [if_neg hempty]
      exact iff_of_true rfl (Or.inl hsome)
  rw [← hended_iff]
  constructor
  · intro harrives
    have hheld := harrives.held
    rw [hstream, hhandle] at hheld
    exact hheld.ended
  · intro hzero
    have hheld : HoldsString memory command := ⟨hbytes, hzero⟩
    exact
      { sent := hreturned
        received := by rw [hstream, hhandle]
        held := by rw [hstream, hhandle]; exact hheld
        run := by rw [hstream, hhandle]; exact cString_eq hheld hnul hshort }

/-- The command `ls /`, written in two parts and read in three. -/
theorem command_arrives_iff_parts :
    CommandArrives [108, 115, 32, 47] [3, 1, 1, 1] [1, 2, 1, 1, 1] fun _ => 255 :=
  (command_arrives_iff (by decide) (by decide) (by decide) (by decide) (by decide) (by decide)
    _).mpr (Or.inl (by decide))

/-- A buffer that holds the command `ls` from before. -/
def staleBuffer : Nat → UInt8 := fun i => [108, 115].getD i 0

/-- A client connects and closes without writing: the old command is run. -/
theorem empty_command_runs_stale :
    runInServer [] [] = (.returned, .start 0) ∧
      (handleClient [some 1] [] staleBuffer).1 = .returned ∧
      (handleClient [some 1] [] staleBuffer).2.2 = [108, 115] ∧
      ¬ CommandArrives [] [] [1] staleBuffer := by
  refine ⟨by simp [runInServer, writeDataToSocket, Writing.start], by decide, by decide +kernel, ?_⟩
  intro harrives
  have hended : (handleClient [some 1] [] staleBuffer).2.1 0 = 0 := harrives.held.ended
  exact absurd hended (by decide)

end Sockets
