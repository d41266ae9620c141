import Unpack.Proofs.Deflate.Reference.Stream

namespace Unpack.Zlib

-- Bytes as a number, the most significant first.
def bigEndian (bytes : List UInt8) : Nat :=
  bytes.foldl (fun number byte => 256 * number + byte.toNat) 0

-- The first byte holds the method and the window size, the second the flags.
structure ValidHeader (first second : UInt8) : Prop where
  check : bigEndian [first, second] % 31 = 0
  method : first.toNat % 16 = 8
  window : first.toNat / 16 ≤ 7

def asksDictionary (second : UInt8) : Bool :=
  second.toNat.testBit 5

end Unpack.Zlib

namespace Unpack.Deflate.Reference

open Zlib (ValidHeader asksDictionary bigEndian)

theorem stream_zlib_starves {data : List UInt8} (h : data.length < 2) :
    stream .zlib (.start [] (Bits.ofBytes data)) =
      .error .starved (.start [] (Bits.ofBytes data)) := by
  have hshort : ¬16 ≤ (State.start [] (Bits.ofBytes data)).bits.length := by
    simp only [State.start, Bits.length_ofBytes]
    omega
  exact bind_of_error (if_neg hshort) _

theorem stream_zlib_eq (first second : UInt8) (body : List UInt8) :
    stream .zlib (.start [] (Bits.ofBytes (first :: second :: body))) =
      afterHeader (bigEndian [first, second]) ⟨Bits.ofBytes body, 16, [], 0⟩ := by
  have htake : (Bits.ofBytes (first :: second :: body)).take 16 = Bits.ofBytes [first, second] :=
    Bits.take_ofBytes (first :: second :: body) 2
  have hdrop : (Bits.ofBytes (first :: second :: body)).drop 16 = Bits.ofBytes body :=
    Bits.drop_ofBytes (first :: second :: body) 2
  have hlong : 16 ≤ (Bits.ofBytes (first :: second :: body)).length := by
    simp only [Bits.length_ofBytes, List.length_cons]
    omega
  have hvalue : Bits.value (Bits.ofBytes [first, second]) = first.toNat + 256 * second.toNat := by
    simp [Bits.value_ofBytes_cons]
  have hnumber : number 16 (.start [] (Bits.ofBytes (first :: second :: body))) =
      .ok (first.toNat + 256 * second.toNat) ⟨Bits.ofBytes body, 16, [], 0⟩ := by
    rw [← hvalue, ← htake, ← hdrop]
    exact if_pos hlong
  have hfirst := first.toNat_lt
  have hheader : (first.toNat + 256 * second.toNat) % 256 * 256 +
      (first.toNat + 256 * second.toNat) / 256 = bigEndian [first, second] := by
    simp only [bigEndian, List.foldl_cons, List.foldl_nil]
    omega
  rw [← hheader]
  exact bind_of_ok hnumber _

theorem bigEndian_pair (first second : UInt8) :
    bigEndian [first, second] / 256 = first.toNat ∧
      bigEndian [first, second] / 4096 = first.toNat / 16 ∧
      (bigEndian [first, second]).testBit 5 = asksDictionary second := by
  have hsecond := second.toNat_lt
  have hnumber : bigEndian [first, second] = 2 ^ 8 * first.toNat + second.toNat := by
    simp [bigEndian]
  refine ⟨by omega, by omega, ?_⟩
  rw [hnumber, Nat.testBit_two_pow_mul_add _ hsecond, asksDictionary]
  rfl

theorem afterHeader_of_valid {first second : UInt8} (h : ValidHeader first second) :
    afterHeader (bigEndian [first, second]) =
      if asksDictionary second then dictionary 4 0 else blocksToEnd .zlib := by
  obtain ⟨hmethod, hwindow, hflag⟩ := bigEndian_pair first second
  have hsize := h.window
  rw [afterHeader, hmethod, hwindow, hflag, if_neg (not_not_intro h.check),
    if_neg (not_not_intro h.method), if_neg (by omega)]

theorem afterHeader_of_invalid {first second : UInt8} (h : ¬ValidHeader first second) :
    ∃ fault, fault ≠ .overflow ∧ afterHeader (bigEndian [first, second]) = fail fault := by
  obtain ⟨hmethod, hwindow, -⟩ := bigEndian_pair first second
  unfold afterHeader
  by_cases hcheck : bigEndian [first, second] % 31 ≠ 0
  · exact ⟨_, Fault.noConfusion, if_pos hcheck⟩
  rw [if_neg hcheck, hmethod, hwindow]
  by_cases hdeflate : first.toNat % 16 ≠ 8
  · exact ⟨_, Fault.noConfusion, if_pos hdeflate⟩
  rw [if_neg hdeflate]
  by_cases hlarge : 15 < first.toNat / 16 + 8
  · exact ⟨_, Fault.noConfusion, if_pos hlarge⟩
  · exact absurd ⟨not_not.mp hcheck, not_not.mp hdeflate, by omega⟩ h

theorem shiftLeft_or_ofNat (value : Nat) (byte : UInt8) :
    (UInt32.ofNat value <<< 8) ||| UInt32.ofNat byte.toNat =
      UInt32.ofNat (256 * value + byte.toNat) := by
  have hbyte := byte.toNat_lt
  apply UInt32.toNat_inj.mp
  have hshift : value % 2 ^ 32 * 2 ^ 8 % 2 ^ 32 = 2 ^ 8 * (value % 2 ^ 24) := by omega
  simp only [UInt32.toNat_or, UInt32.toNat_shiftLeft, UInt32.toNat_ofNat', UInt32.reduceToNat,
    Nat.shiftLeft_eq, Nat.reduceMod, hshift]
  rw [Nat.mod_eq_of_lt (show byte.toNat < 2 ^ 32 by omega),
    ← Nat.two_pow_add_eq_or_of_lt hbyte]
  omega

theorem number_ofBytes (byte : UInt8) (back : List UInt8) (consumed preset : Nat)
    (history : List UInt8) :
    number 8 ⟨Bits.ofBytes (byte :: back), consumed, history, preset⟩ =
      .ok byte.toNat ⟨Bits.ofBytes back, consumed + 8, history, preset⟩ := by
  have hlength := Bits.length_ofByte byte
  have hlong : 8 ≤ (Bits.ofBytes (byte :: back)).length := by
    rw [Bits.length_ofBytes, List.length_cons]
    omega
  have htake : (Bits.ofBytes (byte :: back)).take 8 = Bits.ofByte byte := by
    rw [Bits.ofBytes_cons, List.take_left' hlength]
  have hdrop : (Bits.ofBytes (byte :: back)).drop 8 = Bits.ofBytes back := by
    rw [Bits.ofBytes_cons, List.drop_left' hlength]
  rw [← Bits.value_ofByte byte, ← htake, ← hdrop]
  exact if_pos hlong

-- Big-endian bytes behind a number that is there.
theorem word_ofBytes (bytes back : List UInt8) (value consumed preset : Nat)
    (history : List UInt8) :
    word bytes.length (UInt32.ofNat value)
        ⟨Bits.ofBytes (bytes ++ back), consumed, history, preset⟩ =
      .ok (UInt32.ofNat (bytes.foldl (fun number byte => 256 * number + byte.toNat) value))
        ⟨Bits.ofBytes back, consumed + 8 * bytes.length, history, preset⟩ := by
  induction bytes generalizing value consumed with
  | nil => rfl
  | cons byte bytes ih =>
      have hnumber := number_ofBytes byte (bytes ++ back) consumed preset history
      have hrest := ih (256 * value + byte.toNat) (consumed + 8)
      have hcount : consumed + 8 + 8 * bytes.length = consumed + 8 * (byte :: bytes).length := by
        rw [List.length_cons]
        omega
      rw [← shiftLeft_or_ofNat, hcount] at hrest
      exact (bind_of_ok hnumber _).trans hrest

theorem word_starves {bytes : List UInt8} {missing : Nat} (h : bytes.length < missing)
    (value : UInt32) (consumed preset : Nat) (history : List UInt8) :
    ∃ t, word missing value ⟨Bits.ofBytes bytes, consumed, history, preset⟩ = .error .starved t := by
  induction bytes generalizing missing value consumed with
  | nil =>
      obtain ⟨rest, rfl⟩ := Nat.exists_eq_succ_of_ne_zero (Nat.ne_zero_of_lt h)
      exact ⟨_, bind_of_error (if_neg (Nat.not_succ_le_zero 7)) _⟩
  | cons byte bytes ih =>
      obtain ⟨rest, rfl⟩ := Nat.exists_eq_succ_of_ne_zero (Nat.ne_zero_of_lt h)
      obtain ⟨t, ht⟩ := ih (Nat.lt_of_succ_lt_succ h) ((value <<< 8) ||| UInt32.ofNat byte.toNat)
        (consumed + 8)
      exact ⟨t, (bind_of_ok (number_ofBytes byte bytes consumed preset history) _).trans ht⟩

-- What the reference decoder makes of the front of a zlib stream.
inductive Opens (data : List UInt8) : EStateM.Result Stop State Unit → Prop where
  | short (t : State) (hlength : data.length < 2) : Opens data (.error .starved t)
  | refused (first second : UInt8) (body : List UInt8) (hdata : data = first :: second :: body)
      (hheader : ¬ValidHeader first second) (fault : Fault) (hother : fault ≠ .overflow) (t : State) :
      Opens data (.error (.fault fault) t)
  | blocks (first second : UInt8) (body : List UInt8) (hdata : data = first :: second :: body)
      (hheader : ValidHeader first second) (hplain : asksDictionary second = false)
      (result : EStateM.Result Stop State Unit)
      (hresult : result = blocksToEnd .zlib ⟨Bits.ofBytes body, 16, [], 0⟩) : Opens data result
  | shortId (first second : UInt8) (body : List UInt8) (hdata : data = first :: second :: body)
      (hheader : ValidHeader first second) (hasks : asksDictionary second = true)
      (hlength : body.length < 4) (t : State) : Opens data (.error .starved t)
  | awaits (first second : UInt8) (id body : List UInt8)
      (hdata : data = first :: second :: (id ++ body)) (hheader : ValidHeader first second)
      (hasks : asksDictionary second = true) (hlength : id.length = 4) :
      Opens data (.error (.awaits (UInt32.ofNat (bigEndian id))) ⟨Bits.ofBytes body, 48, [], 0⟩)

theorem dictionary_ofBytes {id : List UInt8} (hlength : id.length = 4) (body : List UInt8) :
    Reference.dictionary 4 0 ⟨Bits.ofBytes (id ++ body), 16, [], 0⟩ =
      .error (.awaits (UInt32.ofNat (bigEndian id))) ⟨Bits.ofBytes body, 48, [], 0⟩ := by
  have hword := word_ofBytes id body 0 16 0 []
  rw [hlength] at hword
  exact bind_of_ok hword fun id => (throw (.awaits id) : Decoding Unit)

theorem opens : (data : List UInt8) → Opens data (stream .zlib (.start [] (Bits.ofBytes data)))
  | [] => by
      rw [stream_zlib_starves (by decide)]
      exact .short _ (by decide)
  | [byte] => by
      rw [stream_zlib_starves (show [byte].length < 2 by simp)]
      exact .short _ (by simp)
  | first :: second :: body => by
      rw [stream_zlib_eq]
      by_cases hheader : ValidHeader first second
      · rw [afterHeader_of_valid hheader]
        cases hasks : asksDictionary second with
        | false => exact .blocks first second body rfl hheader hasks _ rfl
        | true =>
            rw [if_pos rfl]
            by_cases hlength : body.length < 4
            · obtain ⟨t, hstarves⟩ := word_starves hlength 0 16 0 []
              rw [dictionary, bind_of_error hstarves]
              exact .shortId first second body rfl hheader hasks hlength t
            · have hid : (body.take 4).length = 4 := by
                rw [List.length_take]
                omega
              have hstops := dictionary_ofBytes hid (body.drop 4)
              rw [List.take_append_drop] at hstops
              rw [hstops]
              exact .awaits first second (body.take 4) (body.drop 4)
                (by rw [List.take_append_drop]) hheader hasks hid
      · obtain ⟨fault, hother, hfails⟩ := afterHeader_of_invalid hheader
        rw [hfails]
        exact .refused first second body rfl hheader fault hother _

theorem Opens.history_nil {data : List UInt8} {result : EStateM.Result Stop State Unit}
    (h : Opens data result) {id : UInt32} {t : State} (hresult : result = .error (.awaits id) t) :
    t.history = [] := by
  cases h with
  | short t hlength => cases hresult
  | refused first second body hdata hheader fault hother t => cases hresult
  | blocks first second body hdata hheader hplain result hblocks =>
      exact absurd (hblocks.symm.trans hresult) (blocksToEnd_never _ _ _)
  | shortId first second body hdata hheader hasks hlength t => cases hresult
  | awaits first second id body hdata hheader hasks hlength =>
      cases hresult
      rfl

end Unpack.Deflate.Reference
