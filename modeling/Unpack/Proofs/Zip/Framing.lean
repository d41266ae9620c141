import Unpack.Proofs.Sink
import Unpack.Proofs.Zip.Records
import Unpack.Proofs.Zip.Stores
import Unpack.Zip.Archive

namespace Unpack.Zip

open Bytes (suffix)
open Sink (Appends)
open Source (Reliable Frames)

namespace Archive

-- The local record in front of the data agrees with the directory.
theorem checkLocal_ofEntry (e : Entry) : checkLocal e (LocalRecord.ofEntry e) = .ok () := by
  simp [checkLocal, LocalRecord.ofEntry]

-- Where these bytes come at the offset of the entry, its data begin right behind
-- them.
def BeginsBehind (e : Entry) (bytes : ByteArray) : Prop :=
  ∀ {σ : Type} [RandomAccess σ] {valid : Cursor σ → Prop} {rest : Cursor σ → List UInt8},
    Reliable valid rest → ∀ (store : σ) (back : List UInt8), valid ⟨store, e.offset⟩ →
      rest ⟨store, e.offset⟩ = bytes.data.toList ++ back →
      ∃ next : Cursor σ, valid next ∧ rest next = back ∧
        ∀ (entries : Array Entry) (comment : String) (excess : Nat) (verifyCrc : Bool),
          openStream ⟨some store, entries, comment, excess, verifyCrc⟩ e =
            ((body e next.store (e.offset + bytes.size)).map fun body =>
                ⟨body, e.name, e.crc, e.size, verifyCrc, .empty, 0, false⟩,
              ⟨some next.store, entries, comment, excess, verifyCrc⟩)

theorem beginsBehind_record {e : Entry} (hname : e.encodedName.size ≤ 0xFFFF) :
    BeginsBehind e (LocalRecord.ofEntry e).toBytes := by
  intro σ _ valid rest hreliable store back hvalid hrest
  have hframes := LocalRecord.readAll_frames hreliable (LocalRecord.ofEntry e) hname (Nat.zero_le _)
  obtain ⟨next, hread, hnext, hback⟩ := hframes.takes ⟨store, e.offset⟩ back hvalid hrest
  have hcall : LocalRecord.read (Cursor.mk store e.offset) = (.ok (LocalRecord.ofEntry e), next) :=
    hread
  refine ⟨next, hnext, hback, fun entries comment excess verifyCrc => ?_⟩
  rw [openStream]
  dsimp only
  rw [hcall]
  dsimp only
  rw [checkLocal_ofEntry, LocalRecord.length_eq]
  rfl

end Archive

end Unpack.Zip
