import Mathlib.Algebra.GroupWithZero.Nat
import Mathlib.Data.List.Infix
import HujiOS.MachineInt

/-!
# Reading from a socket into a buffer

`readDataFromSocket` of `socket.h`.  The client's bytes are a stream, and each
call of `read` returns some of them, none (which ends the function), or fails.
How many is up to the system, so the counts are an input of the model; when they
run out the call is still waiting.

The buffer is a memory indexed from the pointer that was passed, with no end, so
that a write past the end is a write.  What was written and where the guard of
the loop was evaluated is recorded on the side.

The guard keeps one byte for the terminator and the request does not: when a call
of `read` fills the buffer, the terminator goes behind it.
-/

namespace Sockets

open MachineInt

/-- A call of `readDataFromSocket` on its way. -/
structure Reading where
  /-- `data`, as an offset from the pointer that was passed -/
  data : Nat
  len : Nat
  memory : Nat → UInt8
  /-- the indices written so far; nothing reads it -/
  written : List Nat
  /-- the lengths that the guard was evaluated at; nothing reads it -/
  guards : List Nat

/-- How a call of `readDataFromSocket` stands. -/
inductive Outcome
  | returned
  | panicked
  -- in a call of `read` that has not returned
  | waiting
  deriving DecidableEq, Repr

/-- The bytes that `read` delivers when it returns `count`, which is at most the
number requested and at most what there is. -/
def read (stream : List UInt8) (requested count : Nat) : List UInt8 :=
  stream.take (min count requested)

namespace Reading

/-- The call with `len` bytes of room in `memory`. -/
def start (len : Nat) (memory : Nat → UInt8) : Reading :=
  { data := 0, len := len, memory := memory, written := [], guards := [] }

/-- `len - 1` is evaluated. -/
def guarded (s : Reading) : Reading := { s with guards := s.guards ++ [s.len] }

/-- `read` writes the bytes it delivers. -/
def receive (s : Reading) (bytes : List UInt8) : Reading :=
  { s with
    memory := fun i => if i < s.data then s.memory i else bytes.getD (i - s.data) (s.memory i)
    written := s.written ++ List.range' s.data bytes.length }

/-- `data[i] = value` -/
def store (s : Reading) (i : Nat) (value : UInt8) : Reading :=
  { s with
    memory := fun k => if k = s.data + i then value else s.memory k
    written := s.written ++ [s.data + i] }

/-- `len -= res; data += res;` -/
def advance (s : Reading) (res : Nat) : Reading :=
  { s with len := toUInt64 (s.len - res), data := s.data + res }

end Reading

/-- The counts are the results of the calls of `read`, `none` for -1. -/
def readDataFromSocket (counts : List (Option Nat)) (stream : List UInt8) (s : Reading) :
    Outcome × Reading :=
  let s := s.guarded
  if toUInt64 (s.len - 1) > 0 then
    match counts with
    | [] => (.waiting, s)
    | none :: _ => (.panicked, s)
    | some count :: counts =>
        let bytes := read stream s.len count
        let res := bytes.length
        if res = 0 then (.returned, s)
        else
          let s := ((s.receive bytes).store res 0).advance res
          readDataFromSocket counts (stream.drop res) s
  else (.returned, s)

/-- The buffer size of `Server::handleClient`. -/
def maxBuf : Nat := 256

/-! ## Staying inside the buffer -/

/-- So far every index written is in a buffer of `size` bytes, and the guard was
never evaluated with no room left. -/
structure InBounds (size : Nat) (s : Reading) : Prop where
  written : ∀ i ∈ s.written, i < size
  guards : 0 ∉ s.guards

/-- The counts before the first 0 or -1. -/
def chunks : List (Option Nat) → List Nat
  | some (count + 1) :: counts => (count + 1) :: chunks counts
  | _ => []

/-- The stream is short, or the counts do not add up to the room there is, or
they hit the place of the terminator. -/
def LeavesRoom (len : Nat) (stream : List UInt8) (counts : List (Option Nat)) : Prop :=
  stream.length < len ∨ (chunks counts).sum < len ∨
    ∃ p, p <+: chunks counts ∧ p.sum = len - 1

variable {len size count : Nat} {stream bytes : List UInt8} {counts : List (Option Nat)}
  {s : Reading}

@[simp] theorem length_read (stream : List UInt8) (requested count : Nat) :
    (read stream requested count).length = min (min count requested) stream.length :=
  List.length_take

namespace Reading

/-- A round of the loop in which `read` delivered `bytes`. -/
def round (s : Reading) (bytes : List UInt8) : Reading :=
  ((s.guarded.receive bytes).store bytes.length 0).advance bytes.length

@[simp] theorem round_data (s : Reading) (bytes : List UInt8) :
    (s.round bytes).data = s.data + bytes.length := rfl

@[simp] theorem round_written (s : Reading) (bytes : List UInt8) : (s.round bytes).written =
    s.written ++ List.range' s.data bytes.length ++ [s.data + bytes.length] := rfl

theorem round_len (hsize : s.len < 2 ^ 64) (hle : bytes.length ≤ s.len) :
    (s.round bytes).len = s.len - bytes.length := by
  show toUInt64 ((s.len : Int) - bytes.length) = s.len - bytes.length
  unfold toUInt64
  omega

end Reading

/-! ### The rounds -/

/-- The loop ends with one byte left. -/
theorem readDataFromSocket_one (h : s.len = 1) :
    readDataFromSocket counts stream s = (.returned, s.guarded) := by
  have hguard : ¬ toUInt64 ((s.guarded.len : Int) - 1) > 0 := by
    show ¬ toUInt64 ((s.len : Int) - 1) > 0
    rw [h]
    decide
  rw [readDataFromSocket.eq_def]
  exact if_neg hguard

theorem guard_pos (hlen : 2 ≤ s.len) (hsize : s.len < 2 ^ 64) :
    toUInt64 ((s.guarded.len : Int) - 1) > 0 := by
  show toUInt64 ((s.len : Int) - 1) > 0
  unfold toUInt64
  omega

section Rounds

variable (hlen : 2 ≤ s.len) (hsize : s.len < 2 ^ 64)

include hlen hsize

theorem readDataFromSocket_nil : readDataFromSocket [] stream s = (.waiting, s.guarded) := by
  rw [readDataFromSocket]
  exact if_pos (guard_pos hlen hsize)

theorem readDataFromSocket_error :
    readDataFromSocket (none :: counts) stream s = (.panicked, s.guarded) := by
  rw [readDataFromSocket]
  exact if_pos (guard_pos hlen hsize)

theorem readDataFromSocket_end (hres : (read stream s.len count).length = 0) :
    readDataFromSocket (some count :: counts) stream s = (.returned, s.guarded) := by
  rw [readDataFromSocket]
  exact (if_pos (guard_pos hlen hsize)).trans (if_pos hres)

theorem readDataFromSocket_round (hres : (read stream s.len count).length ≠ 0) :
    readDataFromSocket (some count :: counts) stream s =
      readDataFromSocket counts (stream.drop (read stream s.len count).length)
        (s.round (read stream s.len count)) := by
  rw [readDataFromSocket]
  exact (if_pos (guard_pos hlen hsize)).trans (if_neg hres)

end Rounds

/-- What is recorded stays recorded. -/
theorem recorded_subset (counts : List (Option Nat)) (stream : List UInt8) (s : Reading) :
    s.written ⊆ (readDataFromSocket counts stream s).2.written := by
  fun_induction readDataFromSocket counts stream s with
  | case4 stream s _ _ count counts bytes =>
      rename_i ih
      intro i hi
      have hround : i ∈ (s.round bytes).written := by simp [hi]
      exact ih hround
  | _ => exact List.Subset.refl _

/-! ### The condition, round by round -/

theorem leavesRoom_of_chunks_nil (hlen : 1 ≤ len) (h : chunks counts = []) :
    LeavesRoom len stream counts := by
  right; left
  rw [h]
  exact hlen

/-- A count that fills the buffer leaves no room. -/
theorem not_leavesRoom_full (hlen : 2 ≤ len) (hcount : len ≤ count)
    (hstream : len ≤ stream.length) : ¬ LeavesRoom len stream (some count :: counts) := by
  obtain ⟨k, rfl⟩ : ∃ k, count = k + 1 := ⟨count - 1, by omega⟩
  rintro (hshort | hsum | ⟨p, hp, hsum⟩)
  · omega
  · rw [chunks, List.sum_cons] at hsum
    omega
  · rcases List.prefix_cons_iff.mp hp with rfl | ⟨p, rfl, _⟩
    · rw [List.sum_nil] at hsum
      omega
    · rw [List.sum_cons] at hsum
      omega

/-- A count that does not fill the buffer leaves the question to the rest. -/
theorem leavesRoom_round {res : Nat} (hres : res = min (min count len) stream.length)
    (hpos : 0 < res) (hlt : res < len) : LeavesRoom len stream (some count :: counts) ↔
      LeavesRoom (len - res) (stream.drop res) counts := by
  obtain ⟨k, rfl⟩ : ∃ k, count = k + 1 := ⟨count - 1, by omega⟩
  have hdrop : (stream.drop res).length = stream.length - res := List.length_drop
  by_cases hshort : stream.length < k + 1
  · -- the stream is used up
    constructor
    · intro _
      left
      omega
    · intro _
      left
      omega
  · obtain rfl : res = k + 1 := by omega
    have hstream : stream.length < len ↔ (stream.drop (k + 1)).length < len - (k + 1) := by omega
    have hsum : (chunks (some (k + 1) :: counts)).sum < len ↔
        (chunks counts).sum < len - (k + 1) := by
      rw [chunks, List.sum_cons]
      omega
    refine or_congr hstream (or_congr hsum ⟨?_, ?_⟩)
    · rintro ⟨p, hp, hreach⟩
      rcases List.prefix_cons_iff.mp hp with rfl | ⟨rest, rfl, hrest⟩
      · rw [List.sum_nil] at hreach
        omega
      · rw [List.sum_cons] at hreach
        exact ⟨rest, hrest, by omega⟩
    · rintro ⟨p, hp, hreach⟩
      refine ⟨(k + 1) :: p, List.prefix_cons_iff.mpr (Or.inr ⟨p, rfl, hp⟩), ?_⟩
      rw [List.sum_cons]
      omega

/-! ### The loop -/

theorem InBounds.guarded (h : InBounds size s) (hlen : 1 ≤ s.len) : InBounds size s.guarded := by
  refine ⟨h.written, fun hmem => ?_⟩
  rcases List.mem_append.mp hmem with hmem | hmem
  · exact h.guards hmem
  · have hzero := List.mem_singleton.mp hmem
    omega

/-- A round that leaves a byte stays inside. -/
theorem InBounds.round (h : InBounds size s) (hroom : s.data + s.len = size)
    (hlt : bytes.length < s.len) : InBounds size (s.round bytes) := by
  refine ⟨fun i hi => ?_, (h.guarded (by omega)).guards⟩
  rw [Reading.round_written] at hi
  rcases List.mem_append.mp hi with hi | hi
  · rcases List.mem_append.mp hi with hi | hi
    · exact h.written i hi
    · have hrange := List.mem_range'_1.mp hi
      omega
  · have hlast := List.mem_singleton.mp hi
    omega

/-- A round that fills the buffer puts the terminator behind it. -/
theorem not_inBounds_full (hroom : s.data + s.len = size) (hfull : bytes.length = s.len)
    (counts : List (Option Nat)) (stream : List UInt8) :
    ¬ InBounds size (readDataFromSocket counts stream (s.round bytes)).2 := by
  intro h
  have hmem : s.data + bytes.length ∈ (s.round bytes).written := by simp
  have hlt := h.written _ (recorded_subset counts stream _ hmem)
  omega

/-- **The loop**, from any round on. -/
theorem inBounds_iff (counts : List (Option Nat)) (stream : List UInt8) (hs : InBounds size s)
    (hroom : s.data + s.len = size) (hpos : 1 ≤ s.len) (hsize : s.len < 2 ^ 64) :
    InBounds size (readDataFromSocket counts stream s).2 ↔ LeavesRoom s.len stream counts := by
  induction counts generalizing stream s with
  | nil =>
      have hroom' : LeavesRoom s.len stream [] := leavesRoom_of_chunks_nil hpos rfl
      rw [iff_true_right hroom']
      by_cases hone : s.len = 1
      · rw [readDataFromSocket_one hone]
        exact hs.guarded hpos
      · rw [readDataFromSocket_nil (by omega) hsize]
        exact hs.guarded hpos
  | cons result counts ih =>
      by_cases hone : s.len = 1
      · rw [readDataFromSocket_one hone]
        refine iff_of_true (hs.guarded hpos) (Or.inr (Or.inr ⟨[], List.nil_prefix, ?_⟩))
        rw [hone]
        rfl
      have hlen : 2 ≤ s.len := by omega
      cases result with
      | none =>
          rw [readDataFromSocket_error hlen hsize]
          exact iff_of_true (hs.guarded hpos) (leavesRoom_of_chunks_nil hpos rfl)
      | some count =>
          have hbytes := length_read stream s.len count
          by_cases hres : (read stream s.len count).length = 0
          · rw [readDataFromSocket_end hlen hsize hres]
            refine iff_of_true (hs.guarded hpos) ?_
            cases count with
            | zero => exact leavesRoom_of_chunks_nil hpos rfl
            | succ count => exact Or.inl (by omega)
          rw [readDataFromSocket_round hlen hsize hres]
          by_cases hfull : (read stream s.len count).length = s.len
          · exact iff_of_false (not_inBounds_full hroom hfull _ _)
              (not_leavesRoom_full hlen (by omega) (by omega))
          · have hlt : (read stream s.len count).length < s.len := by omega
            have hnext := Reading.round_len hsize hlt.le
            rw [ih _ (hs.round hroom hlt) (by rw [Reading.round_data, hnext]; omega) (by omega)
              (by omega), hnext]
            exact (leavesRoom_round hbytes (Nat.pos_of_ne_zero hres) hlt).symm

/-- **When reading stays inside the buffer.**  For every buffer of at least two
bytes, whatever it holds, every stream and every way of cutting it: all writes are
inside and the guard is never evaluated with no room left exactly if the stream is
shorter than the buffer, or the counts that are read add up to less, or they reach
the last byte of the buffer exactly, where the loop stops. -/
theorem reads_in_bounds_iff (hlen : 2 ≤ len) (hsize : len < 2 ^ 64) (memory : Nat → UInt8)
    (stream : List UInt8) (counts : List (Option Nat)) :
    InBounds len (readDataFromSocket counts stream (.start len memory)).2 ↔
      LeavesRoom len stream counts := by
  have hstart : InBounds len (.start len memory) := by
    refine ⟨fun i hi => ?_, ?_⟩
    · cases hi
    · exact List.not_mem_nil
  exact inBounds_iff counts stream hstart (Nat.zero_add len) (Nat.le_of_succ_le hlen) hsize

/-- The server's buffer and a command that fits, read in two parts. -/
theorem reads_in_bounds_iff_short : InBounds maxBuf
    (readDataFromSocket [some 2, some 5, some 0] [108, 115, 32, 47] (.start maxBuf fun _ => 0)).2 :=
  (reads_in_bounds_iff (by decide) (by decide) _ _ _).mpr (Or.inl (by decide))

/-- A client that sends 256 bytes, which are read at once: the terminator is
written at index 256. -/
theorem full_read_out_of_bounds :
    256 ∈ (readDataFromSocket [some 256] (List.replicate 256 97)
      (.start maxBuf fun _ => 0)).2.written ∧
    0 ∈ (readDataFromSocket [some 256] (List.replicate 256 97)
      (.start maxBuf fun _ => 0)).2.guards := by
  decide +kernel

end Sockets
