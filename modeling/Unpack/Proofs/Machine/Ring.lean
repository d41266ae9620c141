import Unpack.Machine.Ring
import Unpack.Proofs.Machine.Trap
import Unpack.Proofs.Window.Refinement

namespace Unpack.Machine

open Bits (Register Reader)
open Window (span)

section Taking

variable {r : Reader} (haligned : r.position % 8 = 0)

include haligned

theorem size_take {n : Nat} (hn : n ≤ r.availableBytes) : (r.take n).1.size = n := by
  simp only [Reader.availableBytes, Reader.available] at hn
  simp only [Reader.take, ByteArray.size_extract]
  omega

theorem availableBytes_take (n : Nat) :
    (r.take n).2.availableBytes = r.availableBytes - n := by
  simp only [Reader.take, Reader.availableBytes, Reader.available]
  omega

theorem take_min_availableBytes (n : Nat) : r.take (min n r.availableBytes) = r.take n := by
  have hstop : min ((r.position + 7) / 8 + min n r.availableBytes) r.bytes.size =
      min ((r.position + 7) / 8 + n) r.bytes.size := by
    simp only [Reader.availableBytes, Reader.available]
    omega
  simp only [Reader.take, hstop]

end Taking

theorem take_take (r : Reader) (n m : Nat) :
    (r.take (n + m)).1.data.toList = (r.take n).1.data.toList ++ ((r.take n).2.take m).1.data.toList ∧
      ((r.take n).2.take m).2 = (r.take (n + m)).2 := by
  constructor
  · rw [Reader.toList_take, Reader.toList_take, Reader.toList_take, Reader.toList_rest_take,
      List.take_add]
  · have := r.fetched_le
    apply Reader.ext
    · rfl
    · rfl
    · simp only [Reader.take]
      omega
    · simp only [Reader.take]
      omega

namespace Ring

theorem wrap_lt (place : Nat) : wrap place < span :=
  Nat.mod_lt _ (by decide)

-- Cells that hold the end of `bytes`, as much of it as there are cells, with
-- the next place behind it.
structure Trails (cells : Array UInt8) (stop : Nat) (bytes : List UInt8) : Prop where
  size : cells.size = span
  places : ∃ origin, stop = wrap (origin + bytes.length) ∧
    ∀ i < bytes.length, bytes.length ≤ i + span → cells[wrap (origin + i)]? = bytes[i]?

namespace Trails

variable {cells : Array UInt8} {stop : Nat} {bytes : List UInt8}

theorem stop_lt (h : Trails cells stop bytes) : stop < span := by
  obtain ⟨origin, rfl, -⟩ := h.places
  exact wrap_lt _

-- Whatever the cells hold, none of it counts.
theorem nil (hsize : cells.size = span) : Trails cells 0 [] :=
  ⟨hsize, 0, rfl, fun i hi => absurd hi (Nat.not_lt_zero i)⟩

-- Bytes that have no cell any more can be forgotten.
theorem drop (h : Trails cells stop bytes) {count : Nat} (hkept : count + span ≤ bytes.length) :
    Trails cells stop (bytes.drop count) := by
  obtain ⟨origin, hstop, hplaces⟩ := h.places
  refine ⟨h.size, origin + count, ?_, fun i hi hrecent => ?_⟩
  · rw [hstop, List.length_drop]
    congr 1
    omega
  · rw [List.length_drop] at hi hrecent
    rw [List.getElem?_drop, ← hplaces (count + i) (by omega) (by omega), Nat.add_assoc]

-- Bytes written from the next place on follow those that are there.
theorem paste (h : Trails cells stop bytes) (more : List UInt8)
    (hfits : stop + more.length ≤ span) :
    ∃ cells', paste cells stop more = .ok cells' ∧
      Trails cells' (wrap (stop + more.length)) (bytes ++ more) := by
  obtain ⟨origin, hstop, hplaces⟩ := h.places
  have hsize : cells.toList.length = span := h.size
  refine ⟨_, if_pos (h.size ▸ hfits), ?_, origin, ?_, fun i hi hrecent => ?_⟩
  · simp only [List.size_toArray, List.length_append, List.length_take, List.length_drop, hsize]
    omega
  · rw [hstop, List.length_append]
    simp only [wrap, span]
    omega
  · rw [List.length_append] at hi hrecent
    rw [List.getElem?_toArray]
    have hplace := wrap_lt (origin + i)
    rcases Nat.lt_or_ge i bytes.length with hold | hnew
    · rw [List.getElem?_append_left hold, ← hplaces i hold (by omega)]
      -- An old byte in a cell written now would be too far back.
      have hapart : wrap (origin + i) < stop ∨ stop + more.length ≤ wrap (origin + i) := by
        simp only [wrap, span] at *
        omega
      rcases hapart with hbefore | hbehind
      · rw [List.append_assoc, List.getElem?_append_left
          (by rw [List.length_take, hsize]; omega), List.getElem?_take_of_lt hbefore,
          Array.getElem?_toList]
      · rw [List.getElem?_append_right
          (by rw [List.length_append, List.length_take, hsize]; omega),
          List.length_append, List.length_take, hsize, List.getElem?_drop,
          Array.getElem?_toList]
        congr 1
        omega
    · have hthere : wrap (origin + i) = stop + (i - bytes.length) := by
        simp only [wrap, span] at *
        omega
      rw [List.getElem?_append_right hnew, hthere, List.append_assoc, List.getElem?_append_right
        (by rw [List.length_take, hsize]; omega), List.length_take,
        hsize, List.getElem?_append_left (by omega)]
      congr 1
      omega

-- A run of cells that starts some way back holds the bytes from there on.
theorem slice (h : Trails cells stop bytes) (back count : Nat) (hback : back ≤ bytes.length)
    (hrecent : back ≤ span) (hcount : count ≤ back)
    (hfits : wrap (stop + span - back) + count ≤ span) :
    slice cells (wrap (stop + span - back)) count =
      .ok ((bytes.drop (bytes.length - back)).take count) := by
  obtain ⟨origin, hstop, hplaces⟩ := h.places
  rw [slice_eq (by rw [h.size]; exact hfits)]
  congr 1
  apply List.ext_getElem?
  intro i
  rcases Nat.lt_or_ge i count with hi | hi
  · rw [List.getElem?_take_of_lt hi, List.getElem?_take_of_lt hi, List.getElem?_drop,
      List.getElem?_drop, Array.getElem?_toList, ← hplaces _ (by omega) (by omega)]
    congr 1
    simp only [wrap, span] at *
    omega
  · rw [List.getElem?_eq_none (Nat.le_trans (List.length_take_le _ _) hi),
      List.getElem?_eq_none (Nat.le_trans (List.length_take_le _ _) hi)]

theorem cell (h : Trails cells stop bytes) {back : Nat} (hpositive : 0 < back)
    (hback : back ≤ bytes.length) (hrecent : back ≤ span) :
    cell cells (wrap (stop + span - back)) = .ok (bytes.getD (bytes.length - back) 0) := by
  obtain ⟨origin, hstop, hplaces⟩ := h.places
  have hinside : bytes.length - back < bytes.length := by omega
  apply cell_eq
  rw [List.getD_eq_getElem?_getD, List.getElem?_eq_getElem hinside, Option.getD_some,
    ← List.getElem?_eq_getElem hinside, ← hplaces _ hinside (by omega)]
  congr 1
  simp only [wrap, span] at *
  omega

theorem put (h : Trails cells stop bytes) (byte : UInt8) :
    ∃ cells', put cells stop byte = .ok cells' ∧ Trails cells' (wrap (stop + 1)) (bytes ++ [byte]) := by
  have hinside : stop < cells.size := h.size ▸ h.stop_lt
  obtain ⟨cells', hpaste, htrails⟩ := h.paste [byte] h.stop_lt
  refine ⟨cells', ?_, htrails⟩
  rw [put_eq hinside, ← hpaste, paste_singleton hinside]

-- Bytes written one by one, each a copy of the one `distance` back.
theorem echo (h : Trails cells stop bytes) {distance : Nat} (hpositive : 0 < distance)
    (hreached : distance ≤ bytes.length) (hrecent : distance ≤ span) (length : Nat) :
    ∃ cells', echo (fun place => wrap (place + 1)) cells (wrap (stop + span - distance)) stop length =
        .ok (cells', wrap (stop + length)) ∧
      Trails cells' (wrap (stop + length)) (Log.echo distance length bytes) := by
  induction length generalizing cells stop bytes with
  | zero =>
      have hstop : wrap (stop + 0) = stop := Nat.mod_eq_of_lt h.stop_lt
      exact ⟨cells, by rw [Ring.echo, hstop], hstop.symm ▸ h⟩
  | succ length ih =>
      obtain ⟨cells', hput, htrails⟩ := h.put (bytes.getD (bytes.length - distance) 0)
      have hsource : wrap (wrap (stop + span - distance) + 1) =
          wrap (wrap (stop + 1) + span - distance) := by
        simp only [wrap, span] at *
        omega
      have hstop : wrap (wrap (stop + 1) + length) = wrap (stop + (length + 1)) := by
        simp only [wrap, span]
        omega
      obtain ⟨cells'', hecho, hlast⟩ := ih htrails (by rw [List.length_append]; omega)
      rw [hstop] at hecho hlast
      refine ⟨cells'', ?_, hlast⟩
      rw [Ring.echo, h.cell hpositive hreached hrecent]
      simp only [bind, Except.bind, hput, hsource, hecho]

-- Bytes taken from a register and written from the next place on.
theorem take (h : Trails cells stop bytes) {g : Register} {r : Reader} (hg : g.Shows r)
    (haligned : g.held % 8 = 0) {count : Nat} (hleft : count ≤ r.availableBytes)
    (hfits : stop + count ≤ span) :
    ∃ cells' g', Machine.take g count = .ok ((r.take count).1, g') ∧
      (r.take count).1.size = count ∧
      Machine.paste cells stop (r.take count).1.data.toList = .ok cells' ∧
      Trails cells' (wrap (stop + count)) (bytes ++ (r.take count).1.data.toList) ∧
      g'.Shows (r.take count).2 ∧ g'.held % 8 = 0 := by
  have hposition : r.position % 8 = 0 := by
    have := hg.held
    omega
  have hsize := size_take hposition hleft
  have hlength : (r.take count).1.data.toList.length = count := by
    rw [Reader.length_toList, hsize]
  obtain ⟨g', htake, hshows⟩ := take_eq hg haligned count
  obtain ⟨cells', hpaste, htrails⟩ := h.paste (r.take count).1.data.toList (by omega)
  rw [hlength] at htrails
  refine ⟨cells', g', htake, hsize, hpaste, htrails, hshows, ?_⟩
  have hboundary : (r.take count).2.position % 8 = 0 := Nat.mul_mod_right 8 _
  have := hshows.held
  omega

-- Bytes taken up to the last cell, and then others written from the first one on.
theorem takeAcross (h : Trails cells stop bytes) {g : Register} {r : Reader} (hg : g.Shows r)
    (haligned : g.held % 8 = 0) {tail rest : Nat} (hleft : tail + rest ≤ r.availableBytes)
    (htail : stop + tail = span) (hrest : rest ≤ span) :
    ∃ front others cells₁ cells₂ g₁ g₂, Machine.take g tail = .ok (front, g₁) ∧ front.size = tail ∧
      Machine.paste cells stop front.data.toList = .ok cells₁ ∧
      Machine.take g₁ rest = .ok (others, g₂) ∧ others.size = rest ∧
      Machine.paste cells₁ 0 others.data.toList = .ok cells₂ ∧
      Trails cells₂ (wrap (stop + (tail + rest))) (bytes ++ (r.take (tail + rest)).1.data.toList) ∧
      g₂.Shows (r.take (tail + rest)).2 := by
  have hposition : r.position % 8 = 0 := by
    have := hg.held
    omega
  obtain ⟨hjoined, hboth⟩ := take_take r tail rest
  have hend : wrap (stop + tail) = 0 := by rw [htail]; rfl
  have hlast : wrap (0 + rest) = wrap (stop + (tail + rest)) := by
    simp only [wrap, span] at *
    omega
  obtain ⟨cells₁, g₁, htake₁, hsize₁, hpaste₁, htrails₁, hshows₁, haligned₁⟩ :=
    h.take hg haligned (show tail ≤ r.availableBytes by omega) (Nat.le_of_eq htail)
  rw [hend] at htrails₁
  have hleft' : rest ≤ (r.take tail).2.availableBytes := by
    rw [availableBytes_take hposition]
    omega
  obtain ⟨cells₂, g₂, htake₂, hsize₂, hpaste₂, htrails₂, hshows₂, -⟩ :=
    htrails₁.take hshows₁ haligned₁ hleft' (show 0 + rest ≤ span by omega)
  rw [hlast, List.append_assoc, ← hjoined] at htrails₂
  exact ⟨_, _, cells₁, cells₂, g₁, g₂, htake₁, hsize₁, hpaste₁, htake₂, hsize₂, hpaste₂, htrails₂,
    hboth ▸ hshows₂⟩

-- The bytes from some way back on stand in the last cells and then in the first
-- ones.
theorem slices (h : Trails cells stop bytes) {back count : Nat} (hback : back ≤ bytes.length)
    (hrecent : back ≤ span) (hcount : count ≤ back) :
    ∃ front others,
      Machine.slice cells (wrap (stop + span - back))
        (min count (span - wrap (stop + span - back))) = .ok front ∧
      Machine.slice cells 0 (count - min count (span - wrap (stop + span - back))) = .ok others ∧
      front ++ others = (bytes.drop (bytes.length - back)).take count := by
  have hwrap := wrap_lt (stop + span - back)
  obtain ⟨first, hfirst⟩ : ∃ first, min count (span - wrap (stop + span - back)) = first := ⟨_, rfl⟩
  rw [hfirst]
  have hslice := h.slice back first hback hrecent (by omega) (by omega)
  rcases Nat.eq_zero_or_pos (count - first) with hnone | hmore
  · have hall : count = first := by omega
    refine ⟨_, [], hslice, ?_, ?_⟩
    · rw [hnone, slice_eq (Nat.zero_le _), List.take_zero]
    · rw [List.append_nil, hall]
  · -- The first part ends with the last cell.
    have hzero : wrap (stop + span - (back - first)) = 0 := by
      simp only [wrap, span] at *
      omega
    have hothers := h.slice (back - first) (count - first) (by omega) (by omega) (by omega)
      (by omega)
    rw [hzero] at hothers
    refine ⟨_, _, hslice, hothers, ?_⟩
    have hplace : bytes.length - (back - first) = bytes.length - back + first := by omega
    rw [hplace, ← List.drop_drop, ← List.take_add, Nat.add_sub_cancel' (by omega)]

end Trails

-- Short of the last cell nothing wraps.
theorem echo_succ_eq (cells : Array UInt8) (source stop length : Nat)
    (hsource : source + length ≤ span) (hstop : stop + length < span) :
    echo (· + 1) cells source stop length =
      echo (fun place => wrap (place + 1)) cells source stop length := by
  induction length generalizing cells source stop with
  | zero => rfl
  | succ length ih =>
      have hnext : wrap (stop + 1) = stop + 1 := Nat.mod_eq_of_lt (by omega)
      rw [echo, echo, hnext]
      rcases Nat.eq_zero_or_pos length with rfl | hmore
      · rfl
      · have hlater : wrap (source + 1) = source + 1 := Nat.mod_eq_of_lt (by omega)
        rw [hlater]
        simp only [ih _ (source + 1) (stop + 1) (by omega) (by omega)]

-- A copy that does not reach what it writes is one of bytes that are there.
theorem log_echo_of_le {distance length : Nat} (hlength : length ≤ distance) {bytes : List UInt8}
    (hreached : distance ≤ bytes.length) :
    Log.echo distance length bytes =
      bytes ++ (bytes.drop (bytes.length - distance)).take length := by
  have hlast : ∀ length bytes, Log.echo distance (length + 1) bytes =
      Log.echo distance length bytes ++
        [(Log.echo distance length bytes).getD (bytes.length + length - distance) 0] := by
    intro length
    induction length with
    | zero => exact fun bytes => rfl
    | succ length ih =>
        intro bytes
        rw [Log.echo, ih, List.length_append, List.length_singleton, Nat.add_right_comm _ 1]
        rfl
  induction length with
  | zero => rw [List.take_zero, List.append_nil, Log.echo]
  | succ length ih =>
      have hinside : bytes.length + length - distance < bytes.length := by omega
      rw [hlast, ih (by omega), List.append_assoc, List.take_add_one, List.getD_append _ _ _ _ hinside,
        List.getElem?_drop, List.getD_eq_getElem _ _ hinside]
      have hplace : bytes.length - distance + length = bytes.length + length - distance := by omega
      rw [hplace, List.getElem?_eq_getElem hinside, Option.toList_some]

theorem Trails.repeatCells {cells : Array UInt8} {stop : Nat} {bytes : List UInt8}
    (h : Trails cells stop bytes) {distance : Nat} (hpositive : 0 < distance)
    (hreached : distance ≤ bytes.length) (hrecent : distance ≤ span) {length : Nat}
    (hlength : length ≤ span) :
    ∃ cells' stop', repeatCells cells (wrap (stop + span - distance)) stop length distance =
        .ok (cells', stop') ∧
      Trails cells' stop' (Log.echo distance length bytes) := by
  have hborder := minus_eq hlength
  obtain ⟨cells', hecho, htrails⟩ := h.echo hpositive hreached hrecent length
  unfold Ring.repeatCells
  simp only [hborder, bind, Except.bind]
  split
  · rename_i hstraight
    split
    · rename_i hapart
      have hslice := h.slice distance length hreached hrecent hapart (by omega)
      have hcount : ((bytes.drop (bytes.length - distance)).take length).length = length := by
        rw [List.length_take, List.length_drop]
        omega
      obtain ⟨cells'', hpaste, hlast⟩ :=
        h.paste ((bytes.drop (bytes.length - distance)).take length) (by omega)
      have hstop : wrap (stop + length) = stop + length := Nat.mod_eq_of_lt (by omega)
      rw [hcount, hstop, ← log_echo_of_le hapart hreached] at hlast
      refine ⟨cells'', stop + length, ?_, hlast⟩
      simp only [hslice, hpaste, pure, Except.pure]
    · rw [echo_succ_eq _ _ _ _ (by omega) (by omega)]
      exact ⟨cells', _, hecho, htrails⟩
  · exact ⟨cells', _, hecho, htrails⟩

-- A ring and a window with the same content.
structure Shows (ring : Ring) (w : Window) : Prop where
  trails : Trails ring.cells ring.stop w.kept.data.toList
  filled : ring.filled = w.pending
  history : ring.history = w.history

theorem shows_empty : Shows empty Window.empty :=
  ⟨.nil Array.size_replicate, rfl, rfl⟩

namespace Shows

variable {ring : Ring} {w : Window}

theorem reset (h : Shows ring w) : Shows ring.reset Window.empty :=
  ⟨.nil h.trails.size, rfl, rfl⟩

theorem trim (h : Shows ring w) : Trails ring.cells ring.stop w.trim.kept.data.toList := by
  unfold Window.trim
  split
  · rename_i hlong
    rw [Bytes.toList_extract, List.take_of_length_le
      (by rw [List.length_drop, Reader.length_toList])]
    apply h.trails.drop
    rw [Reader.length_toList]
    omega
  · exact h.trails

theorem free (h : Shows ring w) : ring.free = .ok w.free := by
  have := w.pending_le
  rw [Ring.free, h.filled, minus_eq (by simpa only [span] using this), Window.free]

-- Bytes counted at the end of the ring, and the window with them.
theorem advance (h : Shows ring w) {cells : Array UInt8} {stop count : Nat} {next : Window}
    (htrails : Trails cells stop next.kept.data.toList)
    (hpending : next.pending = w.pending + count)
    (hsize : next.kept.size = w.trim.kept.size + count) :
    Shows (ring.advance cells stop count) next := by
  have hhistory := w.history_trim
  refine ⟨htrails, ?_, ?_⟩
  · rw [hpending, ← h.filled]
    rfl
  · have := h.history
    simp only [Ring.advance, Window.history, hsize] at *
    omega

theorem write (h : Shows ring w) (byte : UInt8) :
    ∃ ring', ring.write byte = .ok ((w.write byte).1, ring') ∧ Shows ring' (w.write byte).2 := by
  have hfilled := h.filled
  have hpending := w.pending_le
  unfold Ring.write Window.write
  by_cases hroom : w.pending < span
  · obtain ⟨cells', hput, htrails⟩ := h.trim.put byte
    rw [if_neg (by omega), dif_pos hroom]
    refine ⟨ring.advance cells' (wrap (ring.stop + 1)) 1, ?_, h.advance ?_ rfl ?_⟩
    · simp only [hput, bind, Except.bind, pure, Except.pure]
    · rw [ByteArray.data_push, Array.toList_push]
      exact htrails
    · rw [ByteArray.size_push]
  · have hfull : ring.filled = span := by
      simp only [span] at *
      omega
    have hnone : w.free = 0 := by rw [Window.free, ← hfilled, hfull, Nat.sub_self]
    rw [if_pos hfull, dif_neg hroom, hnone]
    exact ⟨ring, rfl, h⟩

-- Lengths are counted in 64 bits, so they must leave room for a full window.
theorem copyBack (h : Shows ring w) (length distance : Nat)
    (hlength : length + span < Window.countModulus) :
    ∃ ring', ring.copyBack length distance = .ok ((w.copyBack length distance).1, ring') ∧
      Shows ring' (w.copyBack length distance).2 := by
  have hfilled := h.filled
  have hpending := w.pending_le
  have hcounted : ¬Window.countModulus ≤ w.pending + length := by
    simp only [span] at hlength
    omega
  unfold Ring.copyBack Window.copyBack
  rw [hfilled, h.history, h.free, if_neg hcounted, if_neg hcounted]
  by_cases hroom : w.pending + length ≤ span
  · rw [dif_pos hroom, if_neg (Nat.not_lt.mpr hroom)]
    by_cases hreached : 0 < distance ∧ distance ≤ w.history
    · have hhistory := hreached.2
      rw [← Window.history_trim, Window.history] at hhistory
      rw [if_neg (by omega), dif_pos hreached]
      obtain ⟨cells', stop', hrepeat, htrails⟩ := h.trim.repeatCells hreached.1
        (by rw [Reader.length_toList]; omega) (by omega)
        (show length ≤ span by omega)
      have hsource : minus (ring.stop + span) distance = .ok (ring.stop + span - distance) :=
        minus_eq (by omega)
      refine ⟨ring.advance cells' stop' length, ?_, h.advance ?_ rfl ?_⟩
      · simp only [hsource, hrepeat, bind, Except.bind, pure, Except.pure]
      · rw [Window.toList_echo]
        exact htrails
      · rw [Window.size_echo]
    · rw [if_pos (by omega), dif_neg hreached]
      exact ⟨ring, rfl, h⟩
  · rw [dif_neg hroom, if_pos (Nat.lt_of_not_le hroom)]
    exact ⟨ring, rfl, h⟩

theorem preset (h : Shows ring w) (dictionary : ByteArray) :
    ∃ ring', ring.preset dictionary = .ok ((w.preset dictionary).1, ring') ∧
      Shows ring' (w.preset dictionary).2 := by
  have hfilled := h.filled
  have hhistory := h.history
  have hpending := w.pending_le_size
  rw [Window.history] at hhistory
  unfold Ring.preset Window.preset
  by_cases hempty : w.kept.size = 0
  · have hstart : Trails ring.cells 0 [] := .nil h.trails.size
    obtain ⟨kept, hkept⟩ :
        ∃ kept, dictionary.extract (dictionary.size - span) dictionary.size = kept := ⟨_, rfl⟩
    have hsize : kept.size ≤ span := by
      rw [← hkept, ByteArray.size_extract]
      omega
    obtain ⟨cells', hpaste, htrails⟩ := hstart.paste kept.data.toList
      (by rw [Reader.length_toList]; omega)
    rw [List.nil_append, Nat.zero_add] at htrails
    rw [if_neg (by omega), if_pos hempty, hkept]
    refine ⟨⟨cells', wrap kept.size, ring.filled, kept.size⟩, ?_, htrails, ?_, ?_⟩
    · simp only [hpaste, bind, Except.bind, pure, Except.pure]
    · exact hfilled.trans (by simp only [Window.settled]; omega)
    · exact (Nat.min_eq_left hsize).symm
  · rw [if_pos (by simp only [span] at *; omega), if_neg hempty]
    exact ⟨ring, rfl, h⟩

theorem drain (h : Shows ring w) (n : Nat) :
    ∃ ring', ring.drain n = .ok ((w.drain n).1, ring') ∧ Shows ring' (w.drain n).2 := by
  have hpending := w.pending_le_size
  have hspan : w.pending ≤ span := w.pending_le
  obtain ⟨count, hcount⟩ : ∃ count, min n w.pending = count := ⟨_, rfl⟩
  have hless : count ≤ w.pending := by omega
  obtain ⟨front, others, hslice, hrest, hbytes⟩ := h.trails.slices hpending hspan hless
  have hwrap := wrap_lt (ring.stop + span - w.pending)
  have hstart := minus_eq (show w.pending ≤ ring.stop + span by omega)
  have htail := minus_eq (Nat.le_of_lt hwrap)
  have hfront := minus_eq
    (Nat.min_le_left count (span - wrap (ring.stop + span - w.pending)))
  have hdrained : (w.drain n).1 = ⟨(front ++ others).toArray⟩ := by
    apply ByteArray.ext
    apply Array.toList_inj.mp
    simp only [Window.drain, Bytes.toList_extract, hcount, hbytes]
    rw [Nat.add_sub_cancel_left, Reader.length_toList]
  refine ⟨{ ring with filled := ring.filled - count }, ?_, h.trails, ?_, h.history⟩
  · unfold Ring.drain
    rw [h.filled, hcount, hdrained]
    simp only [hstart, htail, hslice, hfront, hrest, minus_eq hless, bind, Except.bind, pure,
      Except.pure]
  · simp only [Window.drain, h.filled, hcount]

-- As many bytes of a reader at a byte boundary as there is room for, and as it has.
theorem window_copyFrom_eq (w : Window) {r : Reader} (haligned : r.position % 8 = 0) (length : Nat) :
    ∃ count ≤ r.availableBytes, min (min length w.free) r.availableBytes = count ∧
      (r.take count).1.size = count ∧
      (w.copyFrom r length).1.kept = w.trim.kept ++ (r.take count).1 ∧
      (w.copyFrom r length).1.pending = w.pending + count ∧
      (w.copyFrom r length).2 = (r.take count).2 := by
  have htaken := take_min_availableBytes haligned (min length w.free)
  generalize hcount : min (min length w.free) r.availableBytes = count at htaken
  have hleft : count ≤ r.availableBytes := hcount ▸ Nat.min_le_right _ _
  have hsize := size_take haligned hleft
  refine ⟨count, hleft, rfl, hsize, ?_, ?_, ?_⟩
  · simp only [Window.copyFrom, Window.extend, htaken]
  · simp only [Window.copyFrom, Window.extend, ← htaken, hsize]
  · simp only [Window.copyFrom, htaken]

-- That many bytes written at the end, in one piece or in two.
theorem copyFrom_cells (h : Shows ring w) {g : Register} {r : Reader} (hg : g.Shows r)
    (haligned : g.held % 8 = 0) {length count : Nat} (hleft : count ≤ r.availableBytes)
    (hcount : min (min length w.free) r.availableBytes = count) :
    ∃ cells' g', ring.copyFrom g length =
        .ok (count, ring.advance cells' (wrap (ring.stop + count)) count, g') ∧
      Trails cells' (wrap (ring.stop + count))
        (w.trim.kept.data.toList ++ (r.take count).1.data.toList) ∧
      g'.Shows (r.take count).2 := by
  have hstop := h.trails.stop_lt
  have htail := minus_eq (Nat.le_of_lt hstop)
  have hfew : count ≤ span := by
    have : w.free ≤ span := Nat.sub_le _ _
    omega
  unfold Ring.copyFrom
  simp only [h.free, hg.availableBytes_eq, hcount, htail, bind, Except.bind]
  by_cases hwraps : span - ring.stop < count
  · have hall : span - ring.stop + (count - (span - ring.stop)) = count :=
      Nat.add_sub_cancel' (Nat.le_of_lt hwraps)
    obtain ⟨front, others, cells₁, cells₂, g₁, g₂, htake₁, hsize₁, hpaste₁, htake₂, hsize₂, hpaste₂,
      htrails, hshows⟩ := h.trim.takeAcross hg haligned (Nat.le_trans (Nat.le_of_eq hall) hleft)
        (Nat.add_sub_cancel' (Nat.le_of_lt hstop)) (Nat.le_trans (Nat.sub_le _ _) hfew)
    rw [hall] at htrails hshows
    refine ⟨cells₂, g₂, ?_, htrails, hshows⟩
    simp only [if_pos hwraps, htake₁, hpaste₁, hsize₁, minus_eq (Nat.le_of_lt hwraps), htake₂,
      hpaste₂, hsize₂, hall, if_true, pure, Except.pure]
  · obtain ⟨cells', g', htake, hsize, hpaste, htrails, hshows, -⟩ :=
      h.trim.take hg haligned hleft (by omega)
    refine ⟨cells', g', ?_, htrails, hshows⟩
    simp only [if_neg hwraps, htake, hpaste, hsize, pure, Except.pure]

theorem copyFrom (h : Shows ring w) {g : Register} {r : Reader} (hg : g.Shows r)
    (haligned : g.held % 8 = 0) (length : Nat) :
    ∃ ring' g', ring.copyFrom g length =
        .ok (r.availableBytes - (w.copyFrom r length).2.availableBytes, ring', g') ∧
      Shows ring' (w.copyFrom r length).1 ∧ g'.Shows (w.copyFrom r length).2 := by
  have hposition : r.position % 8 = 0 := by
    have := hg.held
    omega
  obtain ⟨count, hleft, hcount, hsize, hkept, hpending, hreader⟩ :=
    window_copyFrom_eq w hposition length
  have hmoved : r.availableBytes - (r.take count).2.availableBytes = count := by
    rw [availableBytes_take hposition]
    omega
  obtain ⟨cells', g', hcopy, htrails, hshows⟩ := h.copyFrom_cells hg haligned hleft hcount
  rw [hreader, hmoved]
  refine ⟨_, g', hcopy, h.advance ?_ hpending ?_, hshows⟩
  · rw [hkept, ByteArray.data_append, Array.toList_append]
    exact htrails
  · rw [hkept, ByteArray.size_append, hsize]

end Shows

end Ring

end Unpack.Machine
