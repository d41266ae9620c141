import Unpack.Proofs.Bits.Reader
import Unpack.Proofs.Window.Log

namespace Unpack.Window

-- What a window keeps is the end of the log, and enough of it for every copy.
structure Shows (w : Window) (log : Log) : Prop where
  suffix : w.kept.data.toList <:+ log.bytes
  reach : log.reach ≤ w.kept.size
  pending : w.pending = log.undrained

namespace Shows

variable {w : Window} {log : Log}

theorem size_le (h : Shows w log) : w.kept.size ≤ log.bytes.length :=
  h.suffix.length_le

theorem history (h : Shows w log) : w.history = log.reach := by
  have := h.size_le
  have := h.reach
  simp only [Window.history, Log.reach, span, Log.limit] at *
  omega

theorem free (h : Shows w log) : w.free = log.room := by
  rw [Window.free, Log.room, h.pending, span, Log.limit]

theorem empty_iff (h : Shows w log) : w.kept.size = 0 ↔ log.bytes = [] := by
  have := h.size_le
  have hreach := h.reach
  simp only [Log.reach, Log.limit] at hreach
  rw [← List.length_eq_zero_iff]
  omega

theorem self (h : Shows w log) : Shows w ⟨log.bytes, w.pending⟩ := by
  rw [h.pending]
  exact h

-- Letting go of bytes that are out of reach goes unnoticed.
theorem trim (h : Shows w log) : Shows w.trim log := by
  unfold Window.trim
  split
  · rename_i hlong
    refine ⟨?_, ?_, h.pending⟩
    · apply List.IsSuffix.trans _ h.suffix
      rw [Bytes.toList_extract,
        ← Bits.Reader.length_toList, ← List.length_drop, List.take_length]
      exact List.drop_suffix _ _
    · simp only [span] at hlong
      simp only [ByteArray.size_extract, Log.reach, Log.limit, span]
      omega
  · exact h

theorem extend (h : Shows w log) (data : ByteArray) (fits : w.pending + data.size ≤ span) :
    Shows (w.extend data fits) (log.append data.data.toList) := by
  obtain ⟨old, hold⟩ := h.trim.suffix
  have hreach := h.trim.reach
  refine ⟨⟨old, ?_⟩, ?_, ?_⟩
  · simp only [Window.extend, Log.append, ByteArray.data_append, Array.toList_append, ← hold,
      List.append_assoc]
  · simp only [Log.reach, Log.limit, Log.append, Window.extend, ByteArray.size_append,
      List.length_append, Bits.Reader.length_toList] at *
    omega
  · simp only [Window.extend, Log.append, h.pending, Bits.Reader.length_toList]

end Shows

theorem shows_empty : Shows empty Log.empty :=
  ⟨List.suffix_refl _, Nat.zero_le _, rfl⟩

theorem toList_echo (distance : Nat) (positive : 0 < distance) (length : Nat) (bytes : ByteArray)
    (reached : distance ≤ bytes.size) :
    (echo distance positive length bytes reached).data.toList =
      Log.echo distance length bytes.data.toList := by
  induction length generalizing bytes with
  | zero => rfl
  | succ length ih =>
      have hinside : bytes.size - distance < bytes.data.toList.length := by
        rw [Bits.Reader.length_toList]
        omega
      rw [echo, ih, Log.echo, Bits.Reader.length_toList, List.getD_eq_getElem _ _ hinside,
        ByteArray.data_push, Array.toList_push, ByteArray.getElem_eq_getElem_data,
        Array.getElem_toList]

variable {w : Window} {log : Log}

theorem write_shows (h : Shows w log) (byte : UInt8) :
    (w.write byte).1 = (log.write byte).1 ∧ Shows (w.write byte).2 (log.write byte).2 := by
  have hpending := h.pending
  unfold write Log.write
  by_cases hroom : w.pending < span
  · rw [dif_pos hroom, if_neg (by simp only [span, Log.limit] at *; omega)]
    refine ⟨rfl, ?_⟩
    obtain ⟨old, hold⟩ := h.trim.suffix
    have hreach := h.trim.reach
    refine ⟨⟨old, ?_⟩, ?_, by simp [Log.append, hpending]⟩
    · simp only [Log.append, ByteArray.data_push, Array.toList_push, ← hold, List.append_assoc]
    · simp only [Log.reach, Log.limit, Log.append, ByteArray.size_push, List.length_append,
        List.length_singleton] at *
      omega
  · rw [dif_neg hroom, if_pos (by simp only [span, Log.limit] at *; omega), h.free]
    exact ⟨rfl, h⟩

-- Lengths are counted in 64 bits, so they must leave room for a full window.
theorem copyBack_shows (h : Shows w log) (length distance : Nat)
    (hlength : length + span < countModulus) :
    (w.copyBack length distance).1 = (log.copyBack length distance).1 ∧
      Shows (w.copyBack length distance).2 (log.copyBack length distance).2 := by
  have hpending := h.pending
  have hcounted : ¬countModulus ≤ w.pending + length := by
    have := w.pending_le
    simp only [span] at hlength
    omega
  unfold copyBack Log.copyBack
  rw [if_neg hcounted, ← hpending]
  by_cases hroom : w.pending + length ≤ span
  · rw [dif_pos hroom, if_neg (show ¬Log.limit < w.pending + length from Nat.not_lt.mpr hroom)]
    by_cases hreached : 0 < distance ∧ distance ≤ w.history
    · rw [dif_pos hreached, if_neg (by rw [← h.history]; omega)]
      refine ⟨rfl, ?_⟩
      obtain ⟨old, hold⟩ := h.trim.suffix
      have hsize : distance ≤ w.trim.kept.size := by
        have h := hreached.2
        rw [← history_trim, history] at h
        omega
      have hreach := h.trim.reach
      refine ⟨⟨old, ?_⟩, ?_, rfl⟩
      · rw [toList_echo, ← hold]
        exact (Log.echo_append distance length old _ hsize).symm
      · rw [size_echo]
        simp only [Log.reach, Log.limit, Log.length_echo] at *
        omega
    · rw [dif_neg hreached, if_pos (by rw [← h.history]; omega), h.history]
      exact ⟨rfl, h⟩
  · rw [dif_neg hroom, if_pos (show Log.limit < w.pending + length from Nat.lt_of_not_le hroom),
      h.free]
    exact ⟨rfl, h⟩

-- Every way in which a copy ends. One that fails changes nothing.
theorem copyBack_ends (w : Window) (length distance : Nat) :
    ((w.copyBack length distance).1 = .ok () ∧ 0 < distance ∧ distance ≤ w.history) ∨
    w.copyBack length distance = (.error .overflow, w) ∨
    w.copyBack length distance = (.error (.windowFull length w.free), w) ∨
    w.copyBack length distance = (.error (.invalidDistance distance w.history), w) ∧
      ¬(0 < distance ∧ distance ≤ w.history) := by
  unfold copyBack
  split
  · exact Or.inr (Or.inl rfl)
  · split
    · split
      · rename_i hreached
        exact Or.inl ⟨rfl, hreached⟩
      · rename_i hfar
        exact Or.inr (Or.inr (Or.inr ⟨rfl, hfar⟩))
    · exact Or.inr (Or.inr (Or.inl rfl))

theorem copyFrom_shows (h : Shows w log) (source : Bits.Reader) (length : Nat) :
    Shows (w.copyFrom source length).1
        (log.append (source.rest.data.toList.take (min length log.room))) ∧
      (w.copyFrom source length).2 = (source.take (min length log.room)).2 := by
  unfold copyFrom
  rw [← Bits.Reader.toList_take, ← h.free]
  exact ⟨h.extend _ _, rfl⟩

theorem preset_shows (h : Shows w log) (dictionary : ByteArray) :
    (w.preset dictionary).1 = (log.preset dictionary.data.toList).1 ∧
      Shows (w.preset dictionary).2 (log.preset dictionary.data.toList).2 := by
  unfold preset Log.preset
  by_cases hempty : w.kept.size = 0
  · rw [if_pos hempty, if_pos (h.empty_iff.mp hempty)]
    refine ⟨rfl, ?_, ?_, rfl⟩
    · simp only [settled, Bytes.toList_extract]
      rw [← Bits.Reader.length_toList, List.take_of_length_le (Nat.le_of_eq List.length_drop)]
      exact List.drop_suffix _ _
    · simp only [settled, ByteArray.size_extract, Log.reach, Log.limit, span,
        Bits.Reader.length_toList]
      omega
  · rw [if_neg hempty, if_neg (fun hlog => hempty (h.empty_iff.mpr hlog))]
    exact ⟨rfl, h⟩

theorem drain_shows (h : Shows w log) (n : Nat) :
    (w.drain n).1.data.toList = (log.drain n).1 ∧ Shows (w.drain n).2 (log.drain n).2 := by
  obtain ⟨old, hold⟩ := h.suffix
  have hpending := w.pending_le_size
  have hlength : log.bytes.length = old.length + w.kept.size := by
    rw [← hold, List.length_append, Bits.Reader.length_toList]
  refine ⟨?_, h.suffix, h.reach, ?_⟩
  · have hstart : log.bytes.length - log.undrained = old.length + (w.kept.size - w.pending) := by
      rw [← h.pending]
      omega
    simp only [drain, Log.drain, Bytes.toList_extract]
    rw [hstart, ← hold, ← List.drop_drop, List.drop_left, List.take_eq_take_iff, List.length_drop,
      Bits.Reader.length_toList]
    omega
  · simp only [drain, Log.drain, h.pending]
    omega

theorem perform_shows (h : Shows w log) (call : Call) (hrange : call.InRange) :
    (w.perform call).1 = (log.perform call).1 ∧ Shows (w.perform call).2 (log.perform call).2 := by
  cases call with
  | write byte =>
      obtain ⟨hanswer, hnext⟩ := write_shows h byte
      exact ⟨congrArg Answer.outcome hanswer, hnext⟩
  | copyBack length distance =>
      obtain ⟨hanswer, hnext⟩ := copyBack_shows h length distance hrange
      exact ⟨congrArg Answer.outcome hanswer, hnext⟩
  | copyFrom source length =>
      obtain ⟨hnext, hleft⟩ := copyFrom_shows h source length
      have hcount : source.rest.data.toList.take (min length log.room) =
          source.rest.data.toList.take
            (min (min length log.room) source.rest.data.toList.length) := by
        rw [List.take_eq_take_iff]
        omega
      have hdrop : source.rest.data.toList.drop (min length log.room) =
          source.rest.data.toList.drop
            (min (min length log.room) source.rest.data.toList.length) := by
        rcases Nat.le_total (min length log.room) source.rest.data.toList.length with hfew | hmany
        · rw [Nat.min_eq_left hfew]
        · rw [Nat.min_eq_right hmany, List.drop_of_length_le hmany, List.drop_length]
      rw [hcount] at hnext
      refine ⟨?_, hnext⟩
      have hrest := Bits.Reader.toList_rest_take source (min length log.room)
      have hsize := congrArg List.length hrest
      rw [List.length_drop, Bits.Reader.length_toList, Bits.Reader.length_toList] at hsize
      simp only [perform, Log.perform, Log.copyFrom, hleft, hrest, hdrop, hsize,
        Bits.Reader.length_toList]
      congr 1
      omega
  | preset dictionary =>
      obtain ⟨hanswer, hnext⟩ := preset_shows h dictionary
      exact ⟨congrArg Answer.outcome hanswer, hnext⟩
  | drain n =>
      obtain ⟨hbytes, hnext⟩ := drain_shows h n
      exact ⟨congrArg Answer.drained hbytes, hnext⟩
  | reset => exact ⟨rfl, shows_empty⟩

theorem run_shows (h : Shows w log) (calls : List Call) (hrange : ∀ call ∈ calls, call.InRange) :
    (w.run calls).1 = (log.run calls).1 ∧ Shows (w.run calls).2 (log.run calls).2 := by
  induction calls generalizing w log with
  | nil => exact ⟨rfl, h⟩
  | cons call calls ih =>
      obtain ⟨hanswer, hnext⟩ := perform_shows h call (hrange call List.mem_cons_self)
      obtain ⟨hanswers, hlast⟩ := ih hnext (fun c hc => hrange c (List.mem_cons_of_mem _ hc))
      exact ⟨congrArg₂ List.cons hanswer hanswers, hlast⟩

-- A call that fails changes nothing.
theorem perform_of_fault (w : Window) (call : Call) (fault : Fault)
    (hfault : (w.perform call).1 = .outcome (.error fault)) : (w.perform call).2 = w := by
  revert hfault
  cases call with
  | write byte =>
      simp only [perform, write]
      split
      · exact fun hfault => by simp at hfault
      · exact fun _ => rfl
  | copyBack length distance =>
      simp only [perform]
      rcases w.copyBack_ends length distance with hdone | hfailed | hfailed | ⟨hfailed, -⟩
      · rw [hdone.1]
        exact fun hfault => by simp at hfault
      all_goals
        rw [hfailed]
        exact fun _ => rfl
  | copyFrom source length => exact fun hfault => by simp [perform] at hfault
  | preset dictionary =>
      simp only [perform, preset]
      split
      · exact fun hfault => by simp at hfault
      · exact fun _ => rfl
  | drain n => exact fun hfault => by simp [perform] at hfault
  | reset => exact fun hfault => by simp [perform] at hfault

-- Whatever is asked of it, in any order, a window answers like a log that lets
-- nothing go. A call that fails changes nothing, and after a reset the
-- answers are those of a new window.
theorem run_eq_log_run (calls : List Call) (hrange : ∀ call ∈ calls, call.InRange) :
    let w := (empty.run calls).2
    let log := (Log.empty.run calls).2
    (empty.run calls).1 = (Log.empty.run calls).1 ∧
      w.free = log.room ∧ w.pending = log.undrained ∧ w.history = log.reach ∧
      (∀ call fault, (w.perform call).1 = .outcome (.error fault) → (w.perform call).2 = w) ∧
      ∀ more, w.run (.reset :: more) =
        (.outcome (.ok ()) :: (empty.run more).1, (empty.run more).2) := by
  obtain ⟨hanswers, h⟩ := run_shows shows_empty calls hrange
  exact ⟨hanswers, h.free, h.pending, h.history, perform_of_fault _, fun _ => rfl⟩

end Unpack.Window
