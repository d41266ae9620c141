import Unpack.Proofs.Bits.BitList
import Unpack.Proofs.Source.Steady
import Unpack.Source.Script

namespace Unpack

-- A chunk that is not used up.
def Delivery.Solid : Delivery → Prop
  | .chunk bytes start => start < bytes.size
  | _ => True

instance : DecidablePred Delivery.Solid
  | .chunk bytes start => inferInstanceAs (Decidable (start < bytes.size))
  | .interruption => inferInstanceAs (Decidable True)
  | .failure _ => inferInstanceAs (Decidable True)

def Delivery.rest : Delivery → List UInt8
  | .chunk bytes start => bytes.data.toList.drop start
  | _ => []

def Delivery.left : Delivery → Nat
  | .chunk bytes start => bytes.size - start + 1
  | _ => 1

namespace Script

open Source (Steady Brings Spares)

-- No chunk is empty.
def Solid (s : Script) : Prop :=
  ∀ delivery ∈ s.deliveries, delivery.Solid

instance : DecidablePred Solid := fun s =>
  inferInstanceAs (Decidable (∀ delivery ∈ s.deliveries, delivery.Solid))

theorem rest_eq (s : Script) : s.rest.data.toList = s.deliveries.flatMap Delivery.rest := by
  have hbehind : ∀ (deliveries : List Delivery) (out : ByteArray),
      (deliveries.foldl (fun out delivery =>
        match delivery with
        | .chunk bytes start => out ++ bytes.extract start bytes.size
        | _ => out) out).data.toList = out.data.toList ++ deliveries.flatMap Delivery.rest := by
    intro deliveries
    induction deliveries with
    | nil => intro out; simp
    | cons delivery later ih =>
        intro out
        rw [List.foldl_cons, ih, List.flatMap_cons]
        cases delivery with
        | chunk bytes start =>
            have hextract := Bytes.toList_extract bytes start bytes.size
            rw [List.take_of_length_le (by rw [List.length_drop]; exact Nat.le_refl _)] at hextract
            simp only [Delivery.rest, ByteArray.data_append, Array.toList_append, hextract,
              List.append_assoc]
        | interruption => rfl
        | failure fault => rfl
  exact hbehind s.deliveries ByteArray.empty

theorem left_eq (s : Script) : s.left = (s.deliveries.map Delivery.left).sum := by
  have hbehind : ∀ (deliveries : List Delivery) (sum : Nat),
      deliveries.foldl (fun sum delivery =>
        match delivery with
        | .chunk bytes start => sum + (bytes.size - start) + 1
        | _ => sum + 1) sum = sum + (deliveries.map Delivery.left).sum := by
    intro deliveries
    induction deliveries with
    | nil => intro sum; rfl
    | cons delivery later ih =>
        intro sum
        rw [List.foldl_cons, ih, List.map_cons, List.sum_cons]
        cases delivery <;> simp only [Delivery.left] <;> omega
  exact (hbehind s.deliveries 0).trans (Nat.zero_add _)

theorem solid_cons {delivery : Delivery} {later : List Delivery} :
    Solid ⟨delivery :: later⟩ ↔ delivery.Solid ∧ Solid ⟨later⟩ :=
  List.forall_mem_cons

-- What a read takes from a chunk that comes next.
theorem read_chunk {bytes : ByteArray} {start n : Nat} {later : List Delivery}
    (hsolid : Solid ⟨.chunk bytes start :: later⟩) (hn : 0 < n) :
    ∃ got next, Script.read ⟨.chunk bytes start :: later⟩ n = (.ok got, next) ∧ next.Solid ∧
      got.size ≠ 0 ∧ Brings (fun s : Script => s.rest.data.toList) ⟨.chunk bytes start :: later⟩ n
        got next := by
  obtain ⟨hstart, hlater⟩ := solid_cons.mp hsolid
  have hstart : start < bytes.size := hstart
  have hgot := Bytes.toList_extract bytes start (min (start + n) bytes.size)
  have hsize : (bytes.extract start (min (start + n) bytes.size)).size =
      min (start + n) bytes.size - start := by
    rw [ByteArray.size_extract]
    omega
  have hchunk : bytes.data.toList.drop start =
      (bytes.extract start (min (start + n) bytes.size)).data.toList ++
        bytes.data.toList.drop (min (start + n) bytes.size) := by
    have hdrop : bytes.data.toList.drop (min (start + n) bytes.size) =
        (bytes.data.toList.drop start).drop (min (start + n) bytes.size - start) := by
      rw [List.drop_drop, Nat.add_sub_of_le (by omega)]
    rw [hgot, hdrop, List.take_append_drop]
  by_cases hmore : min (start + n) bytes.size < bytes.size
  · refine ⟨_, _, if_pos hmore, solid_cons.mpr ⟨hmore, hlater⟩, by omega, ?_, by omega, by omega,
      ?_, fun _ => ?_⟩
    · simp only [rest_eq, List.flatMap_cons, Delivery.rest, hchunk, List.append_assoc]
    · show Script.left _ ≤ Script.left _
      simp only [left_eq, List.map_cons, List.sum_cons, Delivery.left]
      omega
    · show Script.left _ < Script.left _
      simp only [left_eq, List.map_cons, List.sum_cons, Delivery.left]
      omega
  · have hall : min (start + n) bytes.size = bytes.size := by omega
    refine ⟨_, _, if_neg hmore, hlater, by omega, ?_, by omega, by omega, ?_, fun _ => ?_⟩
    · have hnone : bytes.data.toList.drop bytes.size = [] := List.drop_length
      rw [hall, hnone, List.append_nil] at hchunk
      simp only [rest_eq, List.flatMap_cons, Delivery.rest, hchunk, hall]
    · show Script.left _ ≤ Script.left _
      simp only [left_eq, List.map_cons, List.sum_cons, Delivery.left]
      omega
    · show Script.left _ < Script.left _
      simp only [left_eq, List.map_cons, List.sum_cons, Delivery.left]
      omega

-- A failure is over with the read that meets it.
theorem spares_cons {delivery : Delivery} {later : List Delivery} (hnone : delivery.rest = []) :
    Source.Spares (fun s : Script => s.rest.data.toList) ⟨delivery :: later⟩ ⟨later⟩ := by
  constructor
  · simp only [rest_eq, List.flatMap_cons, hnone, List.nil_append]
  · show Script.left _ < Script.left _
    rw [left_eq, left_eq, List.map_cons, List.sum_cons]
    cases delivery <;> simp only [Delivery.left] <;> omega

-- Scripts without empty chunks bring all their bytes.
theorem steady : Steady Solid fun s : Script => s.rest.data.toList where
  keeps := by
    rintro ⟨_ | ⟨delivery, later⟩⟩ n hsolid
    · exact hsolid
    cases delivery with
    | chunk bytes start =>
        show (Script.read _ _).2.Solid
        by_cases hmore : min (start + n) bytes.size < bytes.size
        · rw [Script.read]
          dsimp only
          rw [if_pos hmore]
          exact solid_cons.mpr ⟨hmore, (solid_cons.mp hsolid).2⟩
        · rw [Script.read]
          dsimp only
          rw [if_neg hmore]
          exact (solid_cons.mp hsolid).2
    | interruption => exact (solid_cons.mp hsolid).2
    | failure fault => exact (solid_cons.mp hsolid).2
  brings := by
    rintro ⟨_ | ⟨delivery, later⟩⟩ n bytes next hsolid hn hread
    · cases hread
      exact ⟨rfl, Nat.zero_le _, fun _ => rfl, Nat.le_refl _, fun h => absurd rfl h⟩
    cases delivery with
    | chunk bytes start =>
        obtain ⟨got, next', hchunk, -, -, hbrings⟩ := read_chunk hsolid hn
        cases hchunk.symm.trans hread
        exact hbrings
    | interruption => cases hread
    | failure fault => cases hread
  spares := by
    rintro ⟨_ | ⟨delivery, later⟩⟩ n fault next hsolid hn hread
    · cases hread
    cases delivery with
    | chunk bytes start =>
        obtain ⟨got, next', hchunk, -⟩ := read_chunk hsolid hn
        cases hchunk.symm.trans hread
    | interruption =>
        cases hread
        exact spares_cons rfl
    | failure fault =>
        cases hread
        exact spares_cons rfl

-- Bytes that are left at each failure.
def failures : List Delivery → List Nat
  | [] => []
  | .failure _ :: later => (Script.rest ⟨later⟩).size :: failures later
  | _ :: later => failures later

-- Sources that fail at certain places only.
def FailsAt (places : Nat → Prop) (s : Script) : Prop :=
  s.Solid ∧ ∀ place ∈ failures s.deliveries, places place

instance (places : Nat → Prop) [DecidablePred places] : DecidablePred (FailsAt places) := fun s =>
  inferInstanceAs (Decidable (s.Solid ∧ ∀ place ∈ failures s.deliveries, places place))

theorem FailsAt.steady (places : Nat → Prop) :
    Steady (FailsAt places) fun s : Script => s.rest.data.toList where
  keeps := by
    intro s n h
    refine ⟨Script.steady.keeps s n h.1, ?_⟩
    have hplaces := h.2
    obtain ⟨_ | ⟨delivery, later⟩⟩ := s
    · exact hplaces
    cases delivery with
    | chunk bytes start =>
        show ∀ place ∈ failures (Script.read _ _).2.deliveries, places place
        rw [Script.read]
        dsimp only
        by_cases hmore : min (start + n) bytes.size < bytes.size
        · rw [if_pos hmore]
          exact hplaces
        · rw [if_neg hmore]
          exact hplaces
    | interruption => exact hplaces
    | failure fault => exact (List.forall_mem_cons.mp hplaces).2
  brings s n bytes next h := Script.steady.brings s n bytes next h.1
  spares s n fault next h := Script.steady.spares s n fault next h.1

theorem FailsAt.place {places : Nat → Prop} {bytes : List UInt8}
    (h : Source.Breaks (FailsAt places) (fun s : Script => s.rest.data.toList) bytes) :
    places bytes.length := by
  obtain ⟨⟨_ | ⟨delivery, later⟩⟩, n, fault, ⟨hsolid, hplaces⟩, hn, rfl, hread, hearnest⟩ := h
  · cases hread
  cases delivery with
  | chunk bytes start =>
      obtain ⟨got, next, hchunk, -⟩ := read_chunk hsolid hn
      cases (congrArg Prod.fst hchunk).symm.trans hread
  | interruption =>
      cases hread
      cases hearnest
  | failure fault' =>
      have hplace := (List.forall_mem_cons.mp hplaces).1
      have hrest : (Script.rest ⟨.failure fault' :: later⟩).data.toList =
          (Script.rest ⟨later⟩).data.toList := by
        rw [rest_eq, rest_eq]
        rfl
      dsimp only
      rw [hrest]
      exact hplace

end Script

end Unpack
