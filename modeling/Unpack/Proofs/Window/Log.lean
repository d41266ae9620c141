import Mathlib.Data.List.GetD
import Unpack.Bits.Reader
import Unpack.Window

namespace Unpack

-- Everything appended since the start, a dictionary included, and how many of
-- the newest bytes are not drained. Nothing is ever let go.
structure Log where
  bytes : List UInt8
  undrained : Nat

namespace Log

def empty : Log := ⟨[], 0⟩

-- Bytes that may wait to be drained, and bytes that a copy may reach back.
def limit : Nat := 32768

def room (log : Log) : Nat :=
  limit - log.undrained

def reach (log : Log) : Nat :=
  min log.bytes.length limit

def append (log : Log) (data : List UInt8) : Log :=
  ⟨log.bytes ++ data, log.undrained + data.length⟩

-- One byte at a time, each the one that stands `distance` back.
def echo (distance : Nat) : (length : Nat) → List UInt8 → List UInt8
  | 0, bytes => bytes
  | length + 1, bytes =>
      echo distance length (bytes ++ [bytes.getD (bytes.length - distance) 0])

def write (log : Log) (byte : UInt8) : Except Fault Unit × Log :=
  if limit < log.undrained + 1 then (.error (.windowFull 1 log.room), log)
  else (.ok (), log.append [byte])

def copyBack (log : Log) (length distance : Nat) : Except Fault Unit × Log :=
  if limit < log.undrained + length then (.error (.windowFull length log.room), log)
  else if distance = 0 ∨ log.reach < distance then
    (.error (.invalidDistance distance log.reach), log)
  else (.ok (), ⟨echo distance length log.bytes, log.undrained + length⟩)

-- How many of the bytes at hand are taken, and the log with them.
def copyFrom (log : Log) (source : List UInt8) (length : Nat) : Nat × Log :=
  let count := min (min length log.room) source.length
  (count, log.append (source.take count))

def preset (log : Log) (dictionary : List UInt8) : Except Fault Unit × Log :=
  if log.bytes = [] then (.ok (), ⟨dictionary, 0⟩)
  else (.error (.invalidHeader .lateDictionary), log)

-- The oldest undrained bytes.
def drain (log : Log) (n : Nat) : List UInt8 × Log :=
  ((log.bytes.drop (log.bytes.length - log.undrained)).take n,
    ⟨log.bytes, log.undrained - n⟩)

end Log

-- What can be asked of a window, and of a log in its place.
inductive Window.Call where
  | write (byte : UInt8)
  | copyBack (length distance : Nat)
  | copyFrom (source : Bits.Reader) (length : Nat)
  | preset (dictionary : ByteArray)
  | drain (n : Nat)
  | reset

-- A copy from a reader answers with the number of bytes taken and with the
-- bytes that it left.
inductive Window.Answer where
  | outcome (outcome : Except Fault Unit)
  | copied (count : Nat) (left : List UInt8)
  | drained (bytes : List UInt8)

-- Lengths are counted in 64 bits, and a full window comes on top.
def Window.Call.InRange : Window.Call → Prop
  | .copyBack length _ => length + span < countModulus
  | _ => True

def Window.perform (w : Window) : Call → Answer × Window
  | .write byte =>
      let (outcome, w) := w.write byte
      (.outcome outcome, w)
  | .copyBack length distance =>
      let (outcome, w) := w.copyBack length distance
      (.outcome outcome, w)
  | .copyFrom source length =>
      let (w, left) := w.copyFrom source length
      (.copied (source.rest.size - left.rest.size) left.rest.data.toList, w)
  | .preset dictionary =>
      let (outcome, w) := w.preset dictionary
      (.outcome outcome, w)
  | .drain n =>
      let (bytes, w) := w.drain n
      (.drained bytes.data.toList, w)
  | .reset => (.outcome (.ok ()), .empty)

def Window.run (w : Window) : List Call → List Answer × Window
  | [] => ([], w)
  | call :: calls =>
      let (answer, w) := w.perform call
      let (answers, w) := w.run calls
      (answer :: answers, w)

namespace Log

def perform (log : Log) : Window.Call → Window.Answer × Log
  | .write byte =>
      let (outcome, log) := log.write byte
      (.outcome outcome, log)
  | .copyBack length distance =>
      let (outcome, log) := log.copyBack length distance
      (.outcome outcome, log)
  | .copyFrom source length =>
      let (count, log) := log.copyFrom source.rest.data.toList length
      (.copied count (source.rest.data.toList.drop count), log)
  | .preset dictionary =>
      let (outcome, log) := log.preset dictionary.data.toList
      (.outcome outcome, log)
  | .drain n =>
      let (bytes, log) := log.drain n
      (.drained bytes, log)
  | .reset => (.outcome (.ok ()), .empty)

def run (log : Log) : List Window.Call → List Window.Answer × Log
  | [] => ([], log)
  | call :: calls =>
      let (answer, log) := log.perform call
      let (answers, log) := log.run calls
      (answer :: answers, log)

@[simp] theorem length_echo (distance length : Nat) (bytes : List UInt8) :
    (echo distance length bytes).length = bytes.length + length := by
  induction length generalizing bytes with
  | zero => rfl
  | succ length ih =>
      rw [echo, ih, List.length_append, List.length_singleton]
      omega

-- Bytes older than the distance play no part in a copy.
theorem echo_append (distance length : Nat) (old bytes : List UInt8)
    (hreached : distance ≤ bytes.length) :
    echo distance length (old ++ bytes) = old ++ echo distance length bytes := by
  induction length generalizing bytes with
  | zero => rfl
  | succ length ih =>
      have hsource : (old ++ bytes).getD ((old ++ bytes).length - distance) 0 =
          bytes.getD (bytes.length - distance) 0 := by
        rw [List.getD_append_right _ _ _ _ (by rw [List.length_append]; omega),
          List.length_append]
        congr 1
        omega
      rw [echo, echo, hsource, List.append_assoc]
      apply ih
      rw [List.length_append]
      omega

-- A copy only adds at the end.
theorem prefix_echo (distance length : Nat) (bytes : List UInt8) :
    bytes <+: echo distance length bytes := by
  induction length generalizing bytes with
  | zero => exact List.prefix_refl _
  | succ length ih => exact (List.prefix_append _ _).trans (ih _)

end Log

end Unpack
