import Unpack.Machine.Inflater
import Unpack.Proofs.Deflate.Sound.Symbols
import Unpack.Proofs.Machine.Lengths
import Unpack.Proofs.Machine.Ring

namespace Unpack

open Bits (Register Reader)
open Deflate (Codes Phase Engine endOfBlock lengthCodes distanceCodes fixedLiteralLengths
  fixedDistanceLengths)
open Deflate.Engine (AfterMatch longestMatch)

theorem Bits.Reader.read_zero (r : Reader) : r.read 0 = (some 0, r) := by
  have hposition := r.position_le
  have hlook : r.look 0 = some 0 := by
    rw [r.look_eq_some 0 (Nat.zero_le _), List.take_zero]
    rfl
  have hfetch : r.fetch 0 = r := r.fetch_of_le (by omega)
  rw [Reader.read, hlook]
  simp only [hfetch, r.drop_zero]

namespace Machine

open Lengths (Turn)

def Tables.Shows : Tables → Codes → Prop
  | .fixed, codes => codes = .fixed
  | .dynamic literal distance, codes => literal.Shows codes.literal ∧ distance.Shows codes.distance

def Decodes (m : Machine) (codes : Codes) : Prop :=
  ∃ tables, m.tables = some tables ∧ tables.Shows codes

-- The fields that mean something in a phase have that meaning.
def InPhase (m : Machine) : Phase → Prop
  | .header => m.mode = .header
  | .dictionary missing id => m.mode = .dictionary ∧ m.needed = 8 * missing ∧ m.word = id
  | .block => m.mode = .blocks
  | .storedLength => m.mode = .storedLength
  | .storedComplement length => m.mode = .storedComplement ∧ m.length = length
  | .stored left => m.mode = .stored ∧ m.length = left
  | .codeLengths lengths =>
      m.mode = .codeLengths ∧ ∃ header, m.header = some header ∧ header.Shows lengths
  | .symbol codes => m.mode = .symbol ∧ m.Decodes codes
  | .lengthBits codes length extra =>
      m.mode = .lengthBits ∧ m.Decodes codes ∧ m.length = length ∧ m.needed = extra
  | .distance codes length => m.mode = .distance ∧ m.Decodes codes ∧ m.length = length
  | .distanceBits codes length distance extra =>
      m.mode = .distanceBits ∧ m.Decodes codes ∧ m.length = length ∧ m.distance = distance ∧
        m.needed = extra
  | .trailer missing value => m.mode = .trailer ∧ m.needed = 8 * missing ∧ m.word = value
  | .finished => m.mode = .finished

-- A machine and an engine at the same place.
structure Stands (m : Machine) (e : Engine) : Prop where
  phase : m.InPhase e.phase
  input : m.input.Shows e.input
  window : m.window.Shows e.window
  last : m.last = e.last

-- What no step touches.
structure Account where
  settings : Deflate.Settings
  adler : Adler32
  supplied : Nat
  produced : Nat

def account (m : Machine) : Account :=
  ⟨m.settings, m.adler, m.supplied, m.produced⟩

-- The table that the machine builds for a code that is complete.
theorem fixedTable_eq (lengths : List Nat) (hcount : lengths.length ≤ Huffman.Tree.symbolModulus)
    (hcomplete : Huffman.Complete lengths) :
    ∃ flat, fixedTable lengths = .ok flat ∧
      flat.Shows (.ofTree (.ofLengths lengths) (lengths.foldl max 0)) := by
  have hflat := FlatTable.build_eq hcount false
  rw [(Huffman.Table.build_eq_ok_iff lengths hcount false _).mpr ⟨.inl hcomplete, rfl⟩] at hflat
  obtain ⟨flat, hflat, hshows⟩ := hflat
  exact ⟨flat, by simp only [fixedTable, hflat, bind, Except.bind, pure, Except.pure], hshows⟩

theorem fixedLiteralTable_eq :
    ∃ flat, fixedTable fixedLiteralLengths = .ok flat ∧ flat.Shows Codes.fixed.literal := by
  have hlongest : fixedLiteralLengths.foldl max 0 = 9 := by decide +kernel
  obtain ⟨flat, hflat, hshows⟩ := fixedTable_eq fixedLiteralLengths (by decide +kernel)
    (by decide +kernel)
  rw [hlongest] at hshows
  exact ⟨flat, hflat, hshows⟩

theorem fixedDistanceTable_eq :
    ∃ flat, fixedTable fixedDistanceLengths = .ok flat ∧ flat.Shows Codes.fixed.distance :=
  fixedTable_eq _ (by decide) (by decide)

theorem Tables.Shows.flat_eq {tables : Tables} {codes : Codes} (h : tables.Shows codes) :
    ∃ literal distance, tables.flat = .ok (literal, distance) ∧ literal.Shows codes.literal ∧
      distance.Shows codes.distance := by
  cases tables with
  | fixed =>
      obtain ⟨literal, hliteral, hshows⟩ := fixedLiteralTable_eq
      obtain ⟨distance, hdistance, hshows'⟩ := fixedDistanceTable_eq
      have hcodes : codes = .fixed := h
      refine ⟨literal, distance, ?_, hcodes ▸ hshows, hcodes ▸ hshows'⟩
      rw [flat, hliteral, hdistance]
      rfl
  | dynamic literal distance => exact ⟨literal, distance, rfl, h⟩

section Loop

variable {codes : Codes} {literal distance : FlatTable} {before m : Machine} {r : Reader}
  {w : Window} {last : Bool}

-- The loop over symbols comes to the same answer, and to the same place.
def Agrees (before : Machine) (result : Except Trap (Except Fault Bool × Nat × Machine))
    (answer : Except Fault Bool × Engine) : Prop :=
  ∃ free m, result = .ok (answer.1, free, m) ∧ m.Stands answer.2 ∧ m.account = before.account

-- What is left of the loop after a match: turns from the next symbol on, or
-- nothing where it halts.
def Meets (literal distance : FlatTable) (codes : Codes) (last : Bool) (before : Machine) (fuel : Nat)
    (result : Except Trap (Except Fault Bool × Nat × Machine)) : AfterMatch → Prop
  | .next r w =>
      ∃ m, result = Turn.run (symbolsTurn literal distance) fuel (w.free, m) ∧
        m.Stands ⟨.symbol codes, r, w, last⟩ ∧ m.account = before.account
  | .halt outcome phase r w => Agrees before result (outcome, ⟨phase, r, w, last⟩)

-- The place of a length symbol. The difference has a name, for it must not be
-- computed.
theorem exists_lengthIndex {symbol : Nat} (hsymbol : 257 ≤ symbol) :
    ∃ index, minus symbol 257 = .ok index ∧
      lengthCodes[index]? = Deflate.Reference.lengthRange? index ∧
      Engine.lengthCode? symbol = Deflate.Reference.lengthRange? index := by
  have hcode := Deflate.Reference.lengthCode?_eq symbol
  obtain ⟨index, hindex⟩ : ∃ index, symbol - 257 = index := ⟨_, rfl⟩
  have hcell : lengthCodes[index]? = Engine.lengthCode? symbol := by
    unfold Engine.lengthCode?
    rw [hindex]
  rw [hindex] at hcode
  exact ⟨index, by rw [minus_eq hsymbol, hindex], hcell.trans hcode, hcode⟩

theorem readExtra_eq {g : Register} (hg : g.Shows r) {extra : Nat} (hextra : extra ≤ 16) :
    ∃ g', readExtra g extra = .ok ((r.read extra).1, g') ∧ g'.Shows (r.read extra).2 := by
  by_cases hnone : extra = 0
  · subst hnone
    exact ⟨g, by rw [readExtra, if_pos rfl, r.read_zero], by rw [r.read_zero]; exact hg⟩
  · rw [readExtra, if_neg hnone]
    exact read_eq hg hextra

theorem fromDistanceBits_meets (hroom : longestMatch ≤ w.free) {length least extra : Nat}
    (hlength : length ≤ longestMatch) (hpositive : 0 < least) (hextra : extra ≤ 13)
    (h : m.Stands ⟨.distanceBits codes length least extra, r, w, last⟩)
    (haccount : m.account = before.account) (fuel : Nat) :
    Meets literal distance codes last before fuel
      (Turn.run (symbolsTurn literal distance) (fuel + 1) (w.free, m))
      (Engine.fromDistanceBits codes length least extra r w) := by
  obtain ⟨⟨hmode, hdecodes, rfl, rfl, rfl⟩, hinput, hwindow, hlast⟩ := h
  obtain ⟨g', hread, hg'⟩ := readExtra_eq hinput (show m.needed ≤ 16 by omega)
  have hfits : m.length + Window.span < Window.countModulus := by
    simp only [longestMatch, Window.span, Window.countModulus] at *
    omega
  rw [Engine.fromDistanceBits]
  generalize r.read m.needed = answer at hread hg'
  obtain ⟨more, next⟩ := answer
  cases more with
  | none =>
      have hstop : symbolsTurn literal distance (w.free, m) =
          .ok (.stop (.ok false) (w.free, { m with input := g' })) := by
        simp only [symbolsTurn, if_neg (Nat.not_lt.mpr hroom), hmode, distanceBitsTurn, hread, bind,
          Except.bind, pure, Except.pure]
      exact ⟨_, _, Turn.run_stop hstop fuel, ⟨⟨hmode, hdecodes, rfl, rfl, rfl⟩, hg', hwindow, hlast⟩,
        haccount⟩
  | some more =>
      obtain ⟨window, hring, hwindow'⟩ := hwindow.copyBack m.length (m.distance + more) hfits
      dsimp only
      rcases Engine.copyBack_cases_of_room hroom hlength (show 0 < m.distance + more by omega) with
        ⟨w', hcopy, hpending, -⟩ | ⟨hcopy, -⟩
      · rw [hcopy] at hring hwindow' ⊢
        have hfree : w'.free = w.free - m.length := by
          simp only [Window.free, hpending, Nat.sub_sub]
        have hon : symbolsTurn literal distance (w.free, m) = .ok (.on (w'.free,
            { m with input := g', distance := m.distance + more, window, mode := .symbol })) := by
          simp only [symbolsTurn, if_neg (Nat.not_lt.mpr hroom), hmode, distanceBitsTurn, hread, hring,
            minus_eq (Nat.le_trans hlength hroom), hfree, bind, Except.bind, pure, Except.pure]
        rw [Turn.run_on hon]
        exact ⟨_, rfl, ⟨⟨rfl, hdecodes⟩, hg', hwindow', hlast⟩, haccount⟩
      · rw [hcopy] at hring hwindow' ⊢
        have hstop : symbolsTurn literal distance (w.free, m) = .ok (.stop
            (.error (.invalidDistance (m.distance + more) w.history))
            (w.free, { m with input := g', distance := m.distance + more, window })) := by
          simp only [symbolsTurn, if_neg (Nat.not_lt.mpr hroom), hmode, distanceBitsTurn, hread, hring,
            bind, Except.bind, pure, Except.pure]
        exact ⟨_, _, Turn.run_stop hstop fuel,
          ⟨⟨hmode, hdecodes, rfl, rfl, rfl⟩, hg', hwindow', hlast⟩, haccount⟩

section Shown

variable (hliteral : literal.Shows codes.literal) (hdistance : distance.Shows codes.distance)

include hdistance

theorem fromDistance_meets (hroom : longestMatch ≤ w.free) {length : Nat}
    (hlength : length ≤ longestMatch) (h : m.Stands ⟨.distance codes length, r, w, last⟩)
    (haccount : m.account = before.account) (fuel : Nat) :
    Meets literal distance codes last before fuel
      (Turn.run (symbolsTurn literal distance) (fuel + 2) (w.free, m))
      (Engine.fromDistance codes length r w) := by
  obtain ⟨⟨hmode, hdecodes, rfl⟩, hinput, hwindow, hlast⟩ := h
  obtain ⟨g', hsymbol, hg'⟩ := hdistance.symbol_eq hinput
  have hturn : symbolsTurn literal distance (w.free, m) = distanceTurn distance w.free m := by
    simp only [symbolsTurn, if_neg (Nat.not_lt.mpr hroom), hmode]
  rw [Engine.fromDistance]
  dsimp only at hsymbol hg'
  generalize codes.distance.symbol r = answer at hsymbol hg'
  obtain ⟨outcome, next⟩ := answer
  cases outcome with
  | error fault =>
      have hstop : symbolsTurn literal distance (w.free, m) =
          .ok (.stop (.error fault) (w.free, { m with input := g' })) := by
        simp only [hturn, distanceTurn, hsymbol, bind, Except.bind, pure, Except.pure]
      exact ⟨_, _, Turn.run_stop hstop _, ⟨⟨hmode, hdecodes, rfl⟩, hg', hwindow, hlast⟩, haccount⟩
  | ok found =>
      cases found with
      | none =>
          have hstop : symbolsTurn literal distance (w.free, m) =
              .ok (.stop (.ok false) (w.free, { m with input := g' })) := by
            simp only [hturn, distanceTurn, hsymbol, bind, Except.bind, pure, Except.pure]
          exact ⟨_, _, Turn.run_stop hstop _, ⟨⟨hmode, hdecodes, rfl⟩, hg', hwindow, hlast⟩, haccount⟩
      | some symbol =>
          dsimp only
          cases hcode : Engine.distanceCode? symbol with
          | none =>
              have hbeyond : distanceCodes.size ≤ symbol := Array.getElem?_eq_none_iff.mp hcode
              have hstop : symbolsTurn literal distance (w.free, m) =
                  .ok (.stop (.error (.corrupted next.consumed (.distanceSymbol symbol)))
                    (w.free, { m with input := g' })) := by
                simp only [hturn, distanceTurn, hsymbol, if_pos hbeyond, hg'.consumed, bind, Except.bind,
                  pure, Except.pure]
              exact ⟨_, _, Turn.run_stop hstop _, ⟨⟨hmode, hdecodes, rfl⟩, hg', hwindow, hlast⟩, haccount⟩
          | some range =>
              obtain ⟨least, extra⟩ := range
              have hinside : ¬distanceCodes.size ≤ symbol := fun hbeyond => by
                rw [Engine.distanceCode?, Array.getElem?_eq_none hbeyond] at hcode
                cases hcode
              have hon : symbolsTurn literal distance (w.free, m) = .ok (.on (w.free,
                  { m with input := g', distance := least, needed := extra, mode := .distanceBits })) := by
                simp only [hturn, distanceTurn, hsymbol, if_neg hinside, cell_eq hcode, bind, Except.bind,
                  pure, Except.pure]
              have hbounds := hcode
              rw [Deflate.Reference.distanceCode?_eq] at hbounds
              obtain ⟨hpositive, hextra⟩ := Engine.distanceRange?_bounds hbounds
              rw [Turn.run_on hon]
              exact fromDistanceBits_meets
                (m := { m with input := g', distance := least, needed := extra, mode := .distanceBits })
                hroom hlength hpositive hextra ⟨⟨rfl, hdecodes, rfl, rfl, rfl⟩, hg', hwindow, hlast⟩
                haccount fuel

theorem fromLengthBits_meets (hroom : longestMatch ≤ w.free) {length extra : Nat}
    (hlength : length + 2 ^ extra ≤ 259) (h : m.Stands ⟨.lengthBits codes length extra, r, w, last⟩)
    (haccount : m.account = before.account) (fuel : Nat) :
    Meets literal distance codes last before fuel
      (Turn.run (symbolsTurn literal distance) (fuel + 3) (w.free, m))
      (Engine.fromLengthBits codes length extra r w) := by
  obtain ⟨⟨hmode, hdecodes, rfl, rfl⟩, hinput, hwindow, hlast⟩ := h
  have hturn : symbolsTurn literal distance (w.free, m) = lengthBitsTurn w.free m := by
    simp only [symbolsTurn, if_neg (Nat.not_lt.mpr hroom), hmode]
  rw [Engine.fromLengthBits]
  by_cases hnone : m.needed = 0
  · have hon : symbolsTurn literal distance (w.free, m) =
        .ok (.on (w.free, { m with mode := .distance })) := by
      simp only [hturn, lengthBitsTurn, if_pos hnone, pure, Except.pure]
    have hzero : r.read m.needed = (some 0, r) := by rw [hnone, r.read_zero]
    rw [hnone] at hlength
    rw [Turn.run_on hon, hzero]
    exact fromDistance_meets (m := { m with mode := .distance }) hdistance hroom
      (by simp only [longestMatch]; omega) ⟨⟨rfl, hdecodes, rfl⟩, hinput, hwindow, hlast⟩ haccount fuel
  · have hneeded : m.needed ≤ 16 := by
      have := Nat.lt_two_pow_self (n := m.needed)
      by_contra hmany
      have := Nat.pow_le_pow_right (show 0 < 2 by decide) (show 9 ≤ m.needed by omega)
      omega
    obtain ⟨g', hread, hg'⟩ := read_eq hinput hneeded
    rcases r.read_cases m.needed with ⟨more, next, hresult, hmore, -⟩ | ⟨next, hresult, -, -⟩
    · dsimp only at hread hg'
      rw [hresult] at hread hg' ⊢
      have hon : symbolsTurn literal distance (w.free, m) =
          .ok (.on (w.free, { m with input := g', length := m.length + more, mode := .distance })) := by
        simp only [hturn, lengthBitsTurn, if_neg hnone, hread, bind, Except.bind, pure, Except.pure]
      rw [Turn.run_on hon]
      exact fromDistance_meets
        (m := { m with input := g', length := m.length + more, mode := .distance }) hdistance hroom
        (by simp only [longestMatch]; omega) ⟨⟨rfl, hdecodes, rfl⟩, hg', hwindow, hlast⟩ haccount fuel
    · dsimp only at hread hg'
      rw [hresult] at hread hg' ⊢
      have hstop : symbolsTurn literal distance (w.free, m) =
          .ok (.stop (.ok false) (w.free, { m with input := g' })) := by
        simp only [hturn, lengthBitsTurn, if_neg hnone, hread, bind, Except.bind, pure, Except.pure]
      exact ⟨_, _, Turn.run_stop hstop _, ⟨⟨hmode, hdecodes, rfl, rfl⟩, hg', hwindow, hlast⟩, haccount⟩

-- A symbol for a length, and the match that it begins.
theorem lengthSymbol_meets (hroom : longestMatch ≤ w.free) {symbol : Nat} {g : Register}
    {next : Reader} (hlength : 257 ≤ symbol)
    (hsymbol : literal.symbol m.input = .ok (.ok (some symbol), g)) (hg : g.Shows next)
    (h : m.Stands ⟨.symbol codes, r, w, last⟩) (haccount : m.account = before.account) (fuel : Nat) :
    Meets literal distance codes last before fuel
      (Turn.run (symbolsTurn literal distance) (fuel + 4) (w.free, m))
      (match Engine.lengthCode? symbol with
      | some (length, extra) => Engine.fromLengthBits codes length extra next w
      | none => .halt (.error (.corrupted next.consumed (.literalSymbol symbol))) (.symbol codes) next w) := by
  obtain ⟨⟨hmode, hdecodes⟩, -, hwindow, hlast⟩ := h
  have hturn : symbolsTurn literal distance (w.free, m) = symbolTurn literal w.free m := by
    simp only [symbolsTurn, if_neg (Nat.not_lt.mpr hroom), hmode]
  have hbyte : ¬symbol < 256 := by omega
  have hend : symbol ≠ endOfBlock := Nat.ne_of_gt hlength
  obtain ⟨index, hindex, hcell, hcode⟩ := exists_lengthIndex hlength
  rw [hcode]
  cases hrange : Deflate.Reference.lengthRange? index with
  | none =>
      rw [hrange] at hcell
      have hstop : symbolsTurn literal distance (w.free, m) =
          .ok (.stop (.error (.corrupted next.consumed (.literalSymbol symbol)))
            (w.free, { m with input := g })) := by
        simp only [hturn, symbolTurn, hsymbol, if_neg hbyte, if_neg hend, hindex,
          if_pos (Array.getElem?_eq_none_iff.mp hcell), hg.consumed, bind, Except.bind, pure,
          Except.pure]
      exact ⟨_, _, Turn.run_stop hstop _, ⟨⟨hmode, hdecodes⟩, hg, hwindow, hlast⟩, haccount⟩
  | some range =>
      obtain ⟨length, extra⟩ := range
      rw [hrange] at hcell
      have hinside : ¬lengthCodes.size ≤ index := fun hbeyond => by
        rw [Array.getElem?_eq_none hbeyond] at hcell
        cases hcell
      have hon : symbolsTurn literal distance (w.free, m) = .ok (.on (w.free,
          { m with input := g, length, needed := extra, mode := .lengthBits })) := by
        simp only [hturn, symbolTurn, hsymbol, if_neg hbyte, if_neg hend, hindex, if_neg hinside,
          cell_eq hcell, bind, Except.bind, pure, Except.pure]
      rw [Turn.run_on hon]
      exact fromLengthBits_meets
        (m := { m with input := g, length, needed := extra, mode := .lengthBits }) hdistance hroom
        (Deflate.Reference.lengthRange?_le hrange) ⟨⟨rfl, hdecodes, rfl, rfl⟩, hg, hwindow, hlast⟩
        haccount fuel

variable (distance) in
omit hdistance in
-- A symbol for a byte, which the window has room for.
theorem byteSymbol_on (hroom : longestMatch ≤ w.free) {symbol : Nat} {g : Register} {next : Reader}
    (hbyte : symbol < endOfBlock)
    (hsymbol : literal.symbol m.input = .ok (.ok (some symbol), g)) (hg : g.Shows next)
    (h : m.Stands ⟨.symbol codes, r, w, last⟩) :
    ∃ w' m', w.write symbol.toUInt8 = (.ok (), w') ∧
      symbolsTurn literal distance (w.free, m) = .ok (.on (w'.free, m')) ∧
      m'.Stands ⟨.symbol codes, next, w', last⟩ ∧ m'.account = m.account := by
  obtain ⟨⟨hmode, hdecodes⟩, -, hwindow, hlast⟩ := h
  obtain ⟨window, hring, hwindow'⟩ := hwindow.write symbol.toUInt8
  dsimp only at hring hwindow'
  have hfits : w.pending < Window.span := by
    simp only [Window.free, Window.span, longestMatch] at *
    omega
  rw [Window.write, dif_pos hfits] at hring hwindow' ⊢
  refine ⟨_, { m with input := g, window }, rfl, ?_, ⟨⟨hmode, hdecodes⟩, hg, hwindow', hlast⟩, rfl⟩
  simp only [symbolsTurn, if_neg (Nat.not_lt.mpr hroom), hmode, symbolTurn, hsymbol,
    if_pos (show symbol < 256 from hbyte), hring,
    minus_eq (Nat.le_trans (show 1 ≤ longestMatch by decide) hroom), bind, Except.bind, pure,
    Except.pure]
  rfl

omit hdistance in
-- The symbol for the end of the block.
theorem endSymbol_agrees (hroom : longestMatch ≤ w.free) {g : Register} {next : Reader}
    (hsymbol : literal.symbol m.input = .ok (.ok (some endOfBlock), g)) (hg : g.Shows next)
    (h : m.Stands ⟨.symbol codes, r, w, last⟩) (haccount : m.account = before.account) (fuel : Nat) :
    Agrees before (Turn.run (symbolsTurn literal distance) (fuel + 1) (w.free, m))
      (.ok true, ⟨.block, next, w, last⟩) := by
  have hstop : symbolsTurn literal distance (w.free, m) =
      .ok (.stop (.ok true) (w.free, { m with input := g, mode := .blocks })) := by
    simp only [symbolsTurn, if_neg (Nat.not_lt.mpr hroom), h.phase.1, symbolTurn, hsymbol,
      if_neg (show ¬endOfBlock < 256 from Nat.lt_irrefl 256), if_pos, bind, Except.bind, pure,
      Except.pure]
  exact ⟨_, _, Turn.run_stop hstop fuel, ⟨rfl, hg, h.window, h.last⟩, haccount⟩

omit hdistance in
-- No symbol, for the bits end inside its code or begin with none.
theorem noSymbol_agrees (hroom : longestMatch ≤ w.free) {answer : Except Fault (Option Nat)}
    {g : Register} {next : Reader} {outcome : Except Fault Bool}
    (hanswer : answer = .ok none ∧ outcome = .ok false ∨
      ∃ fault, answer = .error fault ∧ outcome = .error fault)
    (hsymbol : literal.symbol m.input = .ok (answer, g)) (hg : g.Shows next)
    (h : m.Stands ⟨.symbol codes, r, w, last⟩) (haccount : m.account = before.account) (fuel : Nat) :
    Agrees before (Turn.run (symbolsTurn literal distance) (fuel + 1) (w.free, m))
      (outcome, ⟨.symbol codes, next, w, last⟩) := by
  have hstop : symbolsTurn literal distance (w.free, m) =
      .ok (.stop outcome (w.free, { m with input := g })) := by
    rcases hanswer with ⟨rfl, rfl⟩ | ⟨fault, rfl, rfl⟩ <;>
      simp only [symbolsTurn, if_neg (Nat.not_lt.mpr hroom), h.phase.1, symbolTurn, hsymbol, bind,
        Except.bind, pure, Except.pure]
  exact ⟨_, _, Turn.run_stop hstop fuel, ⟨h.phase, hg, h.window, h.last⟩, haccount⟩

include hliteral

-- One symbol: a literal, a match, the end of the block, or none.
theorem symbolRound_agrees (h : m.Stands ⟨.symbol codes, r, w, last⟩)
    (haccount : m.account = before.account) (fuel : Nat) :
    (Engine.symbolRound codes (r, w)).elim
      (fun next => ∃ m' rest, fuel ≤ rest ∧
        Turn.run (symbolsTurn literal distance) (fuel + 4) (w.free, m) =
          Turn.run (symbolsTurn literal distance) rest (next.2.free, m') ∧
        m'.Stands ⟨.symbol codes, next.1, next.2, last⟩ ∧ m'.account = before.account)
      (fun result => Agrees before (Turn.run (symbolsTurn literal distance) (fuel + 4) (w.free, m))
        (Engine.withLast last result)) := by
  rw [Engine.symbolRound]
  by_cases hfull : w.free < longestMatch
  · have hstop : symbolsTurn literal distance (w.free, m) = .ok (.stop (.ok true) (w.free, m)) := by
      simp only [symbolsTurn, if_pos hfull, pure, Except.pure]
    rw [if_pos hfull]
    exact ⟨_, _, Turn.run_stop hstop _, h, haccount⟩
  rw [if_neg hfull]
  have hroom := Nat.le_of_not_lt hfull
  obtain ⟨g, hsymbol, hg⟩ := hliteral.symbol_eq h.input
  dsimp only at hsymbol hg
  generalize codes.literal.symbol r = answer at hsymbol hg
  obtain ⟨fault | (_ | symbol), next⟩ := answer
  · exact noSymbol_agrees hroom (.inr ⟨fault, rfl, rfl⟩) hsymbol hg h haccount _
  · exact noSymbol_agrees hroom (.inl ⟨rfl, rfl⟩) hsymbol hg h haccount _
  dsimp only at hsymbol hg ⊢
  by_cases hbyte : symbol < endOfBlock
  · obtain ⟨w', m', hwrite, hon, hstands, haccount'⟩ := byteSymbol_on distance hroom
      hbyte hsymbol hg h
    rw [if_pos hbyte, hwrite]
    exact ⟨m', fuel + 3, Nat.le_add_right _ _, Turn.run_on hon _, hstands, haccount'.trans haccount⟩
  rw [if_neg hbyte]
  by_cases hend : symbol = endOfBlock
  · subst hend
    rw [if_pos rfl]
    exact endSymbol_agrees hroom hsymbol hg h haccount _
  rw [if_neg hend]
  have hlength : 257 ≤ symbol := by
    simp only [endOfBlock] at hbyte hend
    omega
  have hmeets := lengthSymbol_meets hdistance hroom hlength hsymbol hg h haccount fuel
  cases hcode : Engine.lengthCode? symbol with
  | none =>
      rw [hcode] at hmeets
      exact hmeets
  | some range =>
      rw [hcode] at hmeets
      dsimp only at hmeets ⊢
      generalize Engine.fromLengthBits codes range.1 range.2 next w = result at hmeets
      cases result with
      | next final w' =>
          obtain ⟨m', hrun, hstands, haccount'⟩ := hmeets
          exact ⟨m', fuel, Nat.le_refl _, hrun, hstands, haccount'⟩
      | halt outcome phase final w' => exact hmeets

theorem symbols_agrees {k : Nat} {s : Reader × Window}
    {result : Except Fault Bool × Phase × Reader × Window}
    (hends : Loop.Ends (Engine.symbolRound codes) k s result)
    (h : m.Stands ⟨.symbol codes, s.1, s.2, last⟩) (haccount : m.account = before.account) {fuel : Nat}
    (hfuel : 4 * k ≤ fuel) :
    Agrees before (Turn.run (symbolsTurn literal distance) fuel (s.2.free, m))
      (Engine.withLast last result) := by
  induction hends generalizing m fuel with
  | @done s result hround =>
      obtain ⟨rest, rfl⟩ : ∃ rest, fuel = rest + 4 := ⟨fuel - 4, by omega⟩
      have hagrees := symbolRound_agrees hliteral hdistance h haccount rest
      rw [hround] at hagrees
      exact hagrees
  | @again k s next result hround _ ih =>
      obtain ⟨rest, rfl⟩ : ∃ rest, fuel = rest + 4 := ⟨fuel - 4, by omega⟩
      have hagrees := symbolRound_agrees hliteral hdistance h haccount rest
      rw [hround] at hagrees
      obtain ⟨m', left, hleft, hrun, hstands, haccount'⟩ := hagrees
      rw [hrun]
      exact ih hstands haccount' (by omega)

end Shown

end Loop

end Machine

end Unpack
