import ShapeCode.Image

set_option autoImplicit false

/-!
# Every image has a text

The hexadecimal digits of an image, behind the mark `0x`, are read back as the image
(`Image.decode_digits_text`).
-/

namespace ShapeCode

/-! ## Digits -/

namespace Hex

/-- The byte of a digit. -/
def digitByte (d : Nat) : UInt8 := UInt8.ofNat (Nat.digitChar d).toNat

theorem digitValue?_digitByte : ∀ d < 16, digitValue? (digitByte d) = some d := by decide

theorem utf8_digitChar :
    ∀ d < 16, String.utf8EncodeChar (Nat.digitChar d) = [digitByte d] := by
  decide

/-- The digits of bytes. -/
def digitBytes (bs : Bytes) : Bytes :=
  bs.flatMap fun b => [digitByte (b.toNat / 16), digitByte (b.toNat % 16)]

theorem pairs_digitBytes (position : Nat) (before bs : Bytes) :
    pairs position before (digitBytes bs) = .ok (before.reverse ++ bs) := by
  induction bs generalizing position before with
  | nil => simp [digitBytes, pairs]
  | cons b rest ih =>
    have hb := b.toNat_lt
    have hhigh := digitValue?_digitByte (b.toNat / 16) (by omega)
    have hlow := digitValue?_digitByte (b.toNat % 16) (by omega)
    have hvalue : UInt8.ofNat (16 * (b.toNat / 16) + b.toNat % 16) = b := by
      rw [Nat.div_add_mod, UInt8.ofNat_toNat]
    have hcons : digitBytes (b :: rest) =
        digitByte (b.toNat / 16) :: digitByte (b.toNat % 16) :: digitBytes rest := rfl
    rw [hcons]
    simp only [pairs, hhigh, hlow, hvalue, ih]
    simp

/-- Digits of bytes are read back as the bytes. -/
theorem decode_digitBytes (bs : Bytes) : decode (digitBytes bs) = .ok bs := by
  have hlength : (digitBytes bs).length % 2 = 0 := by
    induction bs with
    | nil => rfl
    | cons b rest ih =>
      have hcons : (digitBytes (b :: rest)).length = (digitBytes rest).length + 2 := rfl
      omega
  have hpairs := pairs_digitBytes 0 [] bs
  unfold decode
  rw [if_neg (by omega), hpairs]
  rfl

end Hex

namespace Image

/-- The text of an image. -/
def text (image : Bytes) : String := String.ofList ('0' :: 'x' :: (Hex.encode image).toList)

theorem not_isBlank_digitChar : ∀ d < 16, isBlank (Nat.digitChar d) = false := by decide

theorem filter_encode (image : Bytes) :
    (Hex.encode image).toList.filter (fun c => !isBlank c) = (Hex.encode image).toList := by
  apply List.filter_eq_self.2
  intro c hc
  simp only [Hex.encode, String.toList_ofList, List.mem_flatMap, List.mem_cons,
    List.not_mem_nil, or_false] at hc
  obtain ⟨b, -, hc⟩ := hc
  have hb := b.toNat_lt
  rcases hc with rfl | rfl
  · rw [not_isBlank_digitChar _ (by omega)]
    rfl
  · rw [not_isBlank_digitChar _ (by omega)]
    rfl

theorem utf8_encode (image : Bytes) :
    (String.ofList (Hex.encode image).toList).toUTF8.data.toList = Hex.digitBytes image :=
        by
  have hflat : (Hex.encode image).toList.flatMap String.utf8EncodeChar =
      Hex.digitBytes image := by
    simp only [Hex.encode, String.toList_ofList, List.flatMap_assoc, Hex.digitBytes]
    congr 1
    funext b
    have hb := b.toNat_lt
    simp only [List.flatMap_cons, List.flatMap_nil, Hex.utf8_digitChar
      (b.toNat / 16) (by omega), Hex.utf8_digitChar (b.toNat % 16) (by omega)]
    rfl
  rw [String.toUTF8, String.toByteArray_ofList, List.utf8Encode,
    List.data_toByteArray, hflat]

/-- The text of an image is read back as the image. -/
theorem decode_digits_text (image : Bytes) :
    Hex.decode (digits (text image)) = .ok image := by
  have hfilter : (text image).toList.filter (fun c => !isBlank c) =
      '0' :: 'x' :: (Hex.encode image).toList := by
    rw [text, String.toList_ofList, List.filter_cons_of_pos (by decide),
      List.filter_cons_of_pos (by decide), filter_encode]
  have hdigits : digits (text image) = Hex.digitBytes image := by
    rw [digits, hfilter]
    exact utf8_encode image
  rw [hdigits]
  exact Hex.decode_digitBytes image

end Image

end ShapeCode
