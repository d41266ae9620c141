import Unpack.Proofs.Bits.Stream
import Unpack.Proofs.Bits.Writer

namespace Unpack.Bits

open Huffman (codeBits length_codeBits)

namespace Stream

-- Calls that a list of bits allows, what it answers, and how many bits they
-- consume.
structure Yields (s : Stream) (calls : List Call) (answers : List Answer) (count : Nat) :
    Prop where
  allowed : s.AllowsAll calls
  answers : (s.run calls).1 = answers
  supplied : (s.run calls).2.supplied = s.supplied
  consumed : (s.run calls).2.consumed = s.consumed + count

variable {s : Stream}

theorem run_append (s : Stream) (calls later : List Call) :
    s.run (calls ++ later) =
      ((s.run calls).1 ++ ((s.run calls).2.run later).1, ((s.run calls).2.run later).2) := by
  induction calls generalizing s with
  | nil => rfl
  | cons call calls ih => simp only [List.cons_append, run, ih]

theorem AllowsAll.append {calls later : List Call} (h : s.AllowsAll calls)
    (hlater : (s.run calls).2.AllowsAll later) : s.AllowsAll (calls ++ later) := by
  induction calls generalizing s with
  | nil => exact hlater
  | cons call calls ih => exact ⟨h.1, ih h.2 hlater⟩

theorem yields_nil (s : Stream) : s.Yields [] [] 0 :=
  ⟨trivial, rfl, rfl, rfl⟩

theorem Yields.append {calls later : List Call} {answers others : List Answer} {n m : Nat}
    (h : s.Yields calls answers n) (hlater : (s.run calls).2.Yields later others m) :
    s.Yields (calls ++ later) (answers ++ others) (n + m) where
  allowed := h.allowed.append hlater.allowed
  answers := by rw [run_append, h.answers, hlater.answers]
  supplied := by rw [run_append, hlater.supplied, h.supplied]
  consumed := by rw [run_append, hlater.consumed, h.consumed, Nat.add_assoc]

-- The bits that are left afterwards.
theorem Yields.bits_eq {calls : List Call} {answers : List Answer} {front back : List Bool}
    (h : s.Yields calls answers front.length) (hbits : s.bits = front ++ back) :
    (s.run calls).2.bits = back := by
  rw [bits, h.supplied, h.consumed, ← List.drop_drop]
  exact (congrArg (List.drop front.length) hbits).trans List.drop_left

theorem yields_one {call : Call} {answer : Answer} {n : Nat} (hallowed : s.Allows call)
    (hperform : s.perform call = (answer, s.skip n)) : s.Yields [call] [answer] n := by
  have hrun : s.run [call] = ([answer], s.skip n) := by
    simp only [run, hperform]
  exact ⟨⟨hallowed, trivial⟩, by rw [hrun], by rw [hrun]; rfl, by rw [hrun]; rfl⟩

theorem yields_read {front back : List Bool} (hbits : s.bits = front ++ back)
    (hshort : front.length ≤ 16) :
    s.Yields [.read front.length] [.number (some (value front))] front.length := by
  have hlook : s.look front.length = some (value front) := by
    have henough : front.length ≤ s.bits.length := by
      rw [hbits, List.length_append]
      omega
    rw [look, if_pos henough, hbits, List.take_left]
  exact yields_one hshort (by simp only [perform, hlook])

-- Bits read one by one come in their order.
theorem yields_readEach {front back : List Bool} (hbits : s.bits = front ++ back) :
    s.Yields (List.replicate front.length (.read 1))
      (front.map fun bit => .number (some bit.toNat)) front.length := by
  induction front generalizing s with
  | nil => exact s.yields_nil
  | cons bit front ih =>
      have hsplit : s.bits = [bit] ++ (front ++ back) := hbits
      have hfirst : s.Yields [.read 1] [.number (some bit.toNat)] 1 :=
        yields_read hsplit (show 1 ≤ 16 by decide)
      have hothers := hfirst.append (ih (Yields.bits_eq hfirst hsplit))
      rwa [Nat.add_comm] at hothers

theorem yields_align (s : Stream) : s.Yields [.align] [.done] s.gap :=
  yields_one trivial rfl

theorem yields_take {bytes : List UInt8} {back : List Bool} (hbits : s.bits = ofBytes bytes ++ back)
    (haligned : s.consumed % 8 = 0) :
    s.Yields [.take bytes.length] [.bytes bytes] (8 * bytes.length) := by
  have hcount : min bytes.length (s.bits.length / 8) = bytes.length := by
    rw [hbits, List.length_append, length_ofBytes]
    omega
  have hperform : s.perform (.take bytes.length) =
      (.bytes bytes, s.skip (8 * bytes.length)) := by
    simp only [perform, hcount]
    rw [hbits, List.take_left' (length_ofBytes bytes), toBytes_ofBytes]
  exact yields_one haligned hperform

end Stream

namespace Writer

-- What can be asked of a writer.
inductive Call where
  | put (number count : Nat)
  | putCode (code length : Nat)
  | align
  | putBytes (data : ByteArray)
  | take

namespace Call

-- At most a word for a number, at most sixteen bits for a code.
def Fits : Call → Prop
  | .put _ count => count ≤ 32
  | .putCode _ length => length ≤ 16
  | _ => True

instance decidableFits : (call : Call) → Decidable call.Fits
  | .put _ count => inferInstanceAs (Decidable (count ≤ 32))
  | .putCode _ length => inferInstanceAs (Decidable (length ≤ 16))
  | .align | .putBytes _ | .take => isTrue trivial

-- The bits that a call puts behind so many others: a number from its low end,
-- a code from its high end, and bytes from a byte boundary on.
def field (before : Nat) : Call → List Bool
  | .put number count => lowBits number count
  | .putCode code length => codeBits code length
  | .align => padding before
  | .putBytes data => padding before ++ ofBytes data.data.toList
  | .take => []

def fields (before : Nat) : List Call → List Bool
  | [] => []
  | call :: calls =>
      call.field before ++ fields (before + (call.field before).length) calls

-- How a call's bits are read back. A reader gives sixteen bits at once, so
-- that longer numbers come in two parts, the lower part first.
def reads : Call → List Bits.Call
  | .put _ count => if count ≤ 16 then [.read count] else [.read 16, .read (count - 16)]
  | .putCode _ length => List.replicate length (.read 1)
  | .align => [.align]
  | .putBytes data => [.align, .take data.data.toList.length]
  | .take => []

def answers : Call → List Answer
  | .put number count =>
      if count ≤ 16 then
        [.number (some (number % 2 ^ count))]
      else
        [.number (some (number % 2 ^ 16)), .number (some (number / 2 ^ 16 % 2 ^ (count - 16)))]
  | .putCode code length => (codeBits code length).map fun bit => .number (some bit.toNat)
  | .align => [.done]
  | .putBytes data => [.done, .bytes data.data.toList]
  | .take => []

end Call

-- What a call hands out, and the writer after it.
def perform (w : Writer) : Call → ByteArray × Writer
  | .put number count => (ByteArray.empty, w.put number count)
  | .putCode code length => (ByteArray.empty, w.putCode code length)
  | .align => (ByteArray.empty, w.align)
  | .putBytes data => (ByteArray.empty, w.putBytes data)
  | .take => w.take

def run (w : Writer) : List Call → List UInt8 × Writer
  | [] => ([], w)
  | call :: calls =>
      let (taken, w) := w.perform call
      let (later, w) := w.run calls
      (taken.data.toList ++ later, w)

-- All that was taken on the way, and then what is left at the end.
def output (calls : List Call) : List UInt8 :=
  (empty.run calls).1 ++ (empty.run calls).2.finish.data.toList

theorem padding_add (whole length : Nat) : padding (8 * whole + length) = padding length := by
  have hsame : (8 * whole + length) % 8 = length % 8 := by omega
  rw [padding, hsame, padding]

-- Only the place within a byte matters to a call.
theorem Call.field_add (whole before : Nat) (call : Call) :
    call.field (8 * whole + before) = call.field before := by
  cases call <;> simp only [Call.field, padding_add]

theorem Call.fields_add (whole before : Nat) (calls : List Call) :
    fields (8 * whole + before) calls = fields before calls := by
  induction calls generalizing before with
  | nil => rfl
  | cons call calls ih => rw [fields, fields, field_add, Nat.add_assoc, ih]

variable {w : Writer} {bits : List Bool}

-- A call puts its bits behind those that are held. Some of all these go out.
theorem Shows.perform (h : w.Shows bits) {call : Call} (hfits : call.Fits) :
    ∃ held, bits ++ call.field bits.length = ofBytes (w.perform call).1.data.toList ++ held ∧
      (w.perform call).2.Shows held ∧
      (w.perform call).2.written = w.written + (call.field bits.length).length := by
  cases call with
  | put number count =>
      refine ⟨_, rfl, h.put number hfits, ?_⟩
      rw [Call.field, length_lowBits]
      exact written_put w number count
  | putCode code length =>
      refine ⟨_, rfl, h.putCode code hfits, ?_⟩
      rw [Call.field, length_codeBits]
      exact written_put w _ length
  | align => exact ⟨_, rfl, h.align, written_align h⟩
  | putBytes data =>
      refine ⟨bits ++ (padding bits.length ++ ofBytes data.data.toList), rfl, ?_, ?_⟩
      · rw [← List.append_assoc]
        exact h.putBytes data
      · have haligned := written_align h
        rw [Call.field, List.length_append, length_ofBytes, ← Nat.add_assoc, ← haligned]
        rfl
  | take =>
      obtain ⟨held, hbits, hshows⟩ := h.take
      exact ⟨held, (List.append_nil bits).trans hbits, hshows, rfl⟩

theorem Shows.run (h : w.Shows bits) {calls : List Call} (hfits : ∀ call ∈ calls, call.Fits) :
    ∃ held, bits ++ Call.fields bits.length calls = ofBytes (w.run calls).1 ++ held ∧
      (w.run calls).2.Shows held ∧
      (w.run calls).2.written = w.written + (Call.fields bits.length calls).length := by
  induction calls generalizing w bits with
  | nil => exact ⟨bits, List.append_nil bits, h, rfl⟩
  | cons call calls ih =>
      obtain ⟨hfirst, hothers⟩ := List.forall_mem_cons.mp hfits
      obtain ⟨held, hbits, hshows, hwritten⟩ := h.perform hfirst
      obtain ⟨last, hlater, hend, hcount⟩ := ih hshows hothers
      have hlength := congrArg List.length hbits
      simp only [List.length_append, length_ofBytes] at hlength
      have hfields : Call.fields (bits.length + (call.field bits.length).length) calls =
          Call.fields held.length calls := by
        rw [hlength, Call.fields_add]
      refine ⟨last, ?_, hend, ?_⟩
      · rw [Call.fields, hfields, ← List.append_assoc, hbits, List.append_assoc, hlater,
          ← List.append_assoc, ← ofBytes_append]
        rfl
      · rw [Call.fields, hfields, List.length_append, ← Nat.add_assoc, ← hwritten]
        exact hcount

theorem ofBytes_output {calls : List Call} (hfits : ∀ call ∈ calls, call.Fits) :
    ofBytes (output calls) =
      Call.fields 0 calls ++ padding (Call.fields 0 calls).length := by
  obtain ⟨held, hbits, hshows, -⟩ := shows_empty.run hfits
  rw [List.nil_append] at hbits
  have hlength := congrArg List.length hbits
  rw [List.length_append, length_ofBytes] at hlength
  rw [output, ofBytes_append, hshows.finish, ← List.append_assoc, ← hbits]
  exact congrArg (Call.fields 0 calls ++ ·) (hlength ▸ (padding_add _ _).symm)

theorem length_padding (s : Stream) : (padding s.consumed).length = s.gap :=
  List.length_replicate

-- Where a call's bits come next, reading them back answers what was put.
theorem Call.yields {s : Stream} {call : Call} (hfits : call.Fits) {back : List Bool}
    (hbits : s.bits = call.field s.consumed ++ back) :
    s.Yields call.reads call.answers (call.field s.consumed).length := by
  cases call with
  | put number count =>
      simp only [Call.field, Call.reads, Call.answers, length_lowBits] at hbits ⊢
      split
      case isTrue hshort =>
        have hread := Stream.yields_read hbits (by rwa [length_lowBits])
        rwa [length_lowBits, value_lowBits] at hread
      case isFalse hlong =>
        have hle : count ≤ 32 := hfits
        have hsplit := List.take_append_drop 16 (lowBits number count)
        have hlow : ((lowBits number count).take 16).length = 16 := by
          rw [List.length_take, length_lowBits]
          omega
        have hhigh : ((lowBits number count).drop 16).length = count - 16 := by
          rw [List.length_drop, length_lowBits]
        rw [← hsplit, List.append_assoc] at hbits
        have hfirst := Stream.yields_read hbits (by omega)
        have hsecond := Stream.yields_read (hfirst.bits_eq hbits) (by omega)
        have hboth := hfirst.append hsecond
        have hcount : count = 16 + (count - 16) := by omega
        have hdrop : number % 2 ^ count / 2 ^ 16 = number / 2 ^ 16 % 2 ^ (count - 16) := by
          rw [hcount, Nat.pow_add, Nat.mod_mul_right_div_self, ← hcount]
        have htake : number % 2 ^ count % 2 ^ 16 = number % 2 ^ 16 :=
          Nat.mod_mod_of_dvd _ (Nat.pow_dvd_pow 2 (by omega))
        rw [hlow, hhigh, value_take, value_drop, value_lowBits, hdrop, htake, ← hcount] at hboth
        exact hboth
  | putCode code length =>
      have heach := Stream.yields_readEach hbits
      rw [Call.field, length_codeBits] at heach ⊢
      exact heach
  | align =>
      rw [Call.field, length_padding]
      exact s.yields_align
  | putBytes data =>
      rw [Call.field, List.append_assoc] at hbits
      have halign := s.yields_align
      rw [← length_padding] at halign
      have haligned : (s.run [.align]).2.consumed % 8 = 0 := by
        rw [halign.consumed, length_padding, Stream.gap]
        omega
      have hboth := halign.append (Stream.yields_take (halign.bits_eq hbits) haligned)
      rwa [Call.field, List.length_append, length_ofBytes]
  | take => exact s.yields_nil

theorem Call.yields_all {s : Stream} {calls : List Call} (hfits : ∀ call ∈ calls, call.Fits)
    {back : List Bool} (hbits : s.bits = fields s.consumed calls ++ back) :
    s.Yields (calls.flatMap reads) (calls.flatMap answers) (fields s.consumed calls).length := by
  induction calls generalizing s with
  | nil => exact s.yields_nil
  | cons call calls ih =>
      obtain ⟨hfirst, hothers⟩ := List.forall_mem_cons.mp hfits
      rw [fields, List.append_assoc] at hbits
      have hcall := Call.yields hfirst hbits
      have hrest := hcall.bits_eq hbits
      rw [← hcall.consumed] at hrest
      have hlater := ih hothers hrest
      rw [fields, List.length_append, ← hcall.consumed]
      exact hcall.append hlater

-- Whatever is taken on the way, the bytes are the fields packed one behind the
-- other, with zeros in the last byte. As many bits are counted, and a register
-- or a reader fed these bytes gives every field back.
theorem output_reads_back (calls : List Call) (hfits : ∀ call ∈ calls, call.Fits) :
    let bits := Call.fields 0 calls
    let readBack : List Bits.Call := .feed ⟨(output calls).toArray⟩ :: calls.flatMap Call.reads
    let answers := .done :: calls.flatMap Call.answers
    ofBytes (output calls) = bits ++ padding bits.length ∧
      (empty.run calls).2.written = bits.length ∧
      (Register.empty.run readBack).1 = answers ∧ (Reader.empty.run readBack).1 = answers := by
  intro bits readBack answers
  have houtput := ofBytes_output hfits
  obtain ⟨-, -, -, hwritten⟩ := shows_empty.run hfits
  have hfed : (Stream.empty.perform (.feed ⟨(output calls).toArray⟩)).2.bits =
      Call.fields 0 calls ++ padding bits.length := houtput
  have hyields := Call.yields_all hfits hfed
  have hallowed : Stream.empty.AllowsAll readBack := ⟨trivial, hyields.allowed⟩
  have hstream : (Stream.empty.run readBack).1 = answers :=
    congrArg (List.cons Answer.done) hyields.answers
  obtain ⟨hregister, hreader, -⟩ := Stream.tracks_empty.run hallowed
  exact ⟨houtput, hwritten.trans (Nat.zero_add _), hregister.trans hstream,
    hreader.trans hstream⟩

-- A partial byte stays behind when bytes are taken.
theorem output_reads_back_taken :
    let calls : List Call := [.put 5 3, .take, .put 0xDEADBEEF 32, .take, .putCode 6 3,
      .putBytes ⟨#[0xAB, 0xCD]⟩, .take, .put 0x33 6]
    (∀ call ∈ calls, call.Fits) ∧
      output calls = [0x7D, 0xF7, 0x6D, 0xF5, 0x1E, 0xAB, 0xCD, 0x33] ∧
      (Register.empty.run (.feed ⟨(output calls).toArray⟩ :: calls.flatMap Call.reads)).1 =
        [.done, .number (some 5), .number (some 0xBEEF), .number (some 0xDEAD), .number (some 1),
          .number (some 1), .number (some 0), .done, .bytes [0xAB, 0xCD], .number (some 0x33)] := by
  have hfits : ∀ call ∈ ([.put 5 3, .take, .put 0xDEADBEEF 32, .take, .putCode 6 3,
      .putBytes ⟨#[0xAB, 0xCD]⟩, .take, .put 0x33 6] : List Call), call.Fits := by
    decide
  exact ⟨hfits, by decide +kernel, (output_reads_back _ hfits).2.2.1.trans (by decide)⟩

end Writer

end Unpack.Bits
