import Mathlib.Data.String.Basic

/-!
# The order of texts is the order of their bytes

Texts are compared character by character. To compare their bytes in UTF-8 comes to the same, for
the encoding was made to be like that: of two characters the greater one has the greater bytes, even
if its bytes are more, since the first byte tells how many follow.

So a sorted list of texts is sorted by its bytes, too.
-/

set_option autoImplicit false

namespace ObjectHeap

namespace Text

/-- The bytes of a text in UTF-8. -/
def utf8 (text : String) : List UInt8 := text.toUTF8.data.toList

theorem toList_utf8Encode (chars : List Char) :
    chars.utf8Encode.data.toList = chars.flatMap String.utf8EncodeChar := by
  rw [List.utf8Encode, List.toList_data_toByteArray]

theorem utf8_eq_flatMap (text : String) :
    utf8 text = text.toList.flatMap String.utf8EncodeChar := by
  rw [← toList_utf8Encode, String.utf8Encode_toList]
  rfl

/-! ## Characters -/

theorem ofNat_lt_ofNat {a b : Nat} (ha : a < 256) (hb : b < 256) :
    UInt8.ofNat a < UInt8.ofNat b ↔ a < b := by
  rw [UInt8.lt_iff_toNat_lt, UInt8.toNat_ofNat_of_lt' ha, UInt8.toNat_ofNat_of_lt' hb]

theorem ofNat_inj {a b : Nat} (ha : a < 256) (hb : b < 256) :
    UInt8.ofNat a = UInt8.ofNat b ↔ a = b := by
  rw [← UInt8.toNat_inj, UInt8.toNat_ofNat_of_lt' ha, UInt8.toNat_ofNat_of_lt' hb]

theorem toNat_val_lt (c : Char) : c.val.toNat < 0x110000 := by
  rcases c.valid with h | ⟨-, h⟩
  · exact Nat.lt_trans h (by decide)
  · exact h

/-- Of two characters the smaller one has the smaller bytes, whatever follows them. -/
theorem encode_append_lt {c d : Char} (h : c < d) (x y : List UInt8) :
    String.utf8EncodeChar c ++ x < String.utf8EncodeChar d ++ y := by
  have hval : c.val.toNat < d.val.toNat := h
  have hmax := toNat_val_lt d
  -- Each byte takes six bits off what the byte before it took.
  have htwelve (n : Nat) : n / 4096 = n / 64 / 64 := by rw [Nat.div_div_eq_div_mul]
  have heighteen (n : Nat) : n / 262144 = n / 64 / 64 / 64 := by
    rw [Nat.div_div_eq_div_mul, Nat.div_div_eq_div_mul]
  simp only [String.utf8EncodeChar, htwelve, heighteen]
  generalize c.val.toNat = v at *
  generalize d.val.toNat = w at *
  -- One case for each pair of lengths. The bytes are read as the numbers that they were made of.
  split_ifs <;> simp only [List.cons_append, List.nil_append, List.cons_lt_cons_iff] <;>
    simp (disch := omega) only [ofNat_lt_ofNat, ofNat_inj] <;> omega

/-! ## Texts -/

theorem flatMap_encode_lt {first second : List Char} (h : first < second) :
    first.flatMap String.utf8EncodeChar < second.flatMap String.utf8EncodeChar := by
  induction h with
  | @nil c rest =>
    have hpos : 0 < (String.utf8EncodeChar c).length := by
      rw [String.length_utf8EncodeChar]
      exact c.utf8Size_pos
    obtain ⟨byte, more, heq⟩ := List.exists_cons_of_length_pos hpos
    rw [List.flatMap_nil, List.flatMap_cons, heq, List.cons_append]
    exact List.nil_lt_cons _ _
  | rel hlt =>
    rw [List.flatMap_cons, List.flatMap_cons]
    exact encode_append_lt hlt _ _
  | cons _ ih =>
    rw [List.flatMap_cons, List.flatMap_cons]
    exact List.append_left_lt ih

theorem utf8_lt_of_lt {first second : String} (h : first < second) : utf8 first < utf8 second := by
  rw [utf8_eq_flatMap, utf8_eq_flatMap]
  exact flatMap_encode_lt h

theorem utf8_lt_iff {first second : String} : utf8 first < utf8 second ↔ first < second := by
  refine ⟨fun h => ?_, utf8_lt_of_lt⟩
  rcases lt_trichotomy first second with hlt | rfl | hgt
  · exact hlt
  · exact absurd h (List.lt_irrefl _)
  · exact absurd h (List.lt_asymm (utf8_lt_of_lt hgt))

/-! ## Sorting -/

theorem pairwise_le_mergeSort (texts : List String) :
    (texts.mergeSort fun s t => s ≤ t).Pairwise fun s t => s ≤ t := by
  refine (List.pairwise_mergeSort (fun s t u hst htu => ?_) (fun s t => ?_) texts).imp
    of_decide_eq_true
  · exact decide_eq_true (String.le_trans (of_decide_eq_true hst) (of_decide_eq_true htu))
  · rw [Bool.or_eq_true, decide_eq_true_iff, decide_eq_true_iff]
    exact String.le_total s t

/-- Different texts are strictly ascending when they have been sorted. -/
theorem pairwise_utf8_lt_mergeSort {texts : List String} (h : texts.Nodup) :
    (texts.mergeSort fun s t => s ≤ t).Pairwise fun s t => utf8 s < utf8 t := by
  have hnodup : (texts.mergeSort fun s t => s ≤ t).Nodup :=
    (List.mergeSort_perm _ _).nodup_iff.2 h
  refine ((pairwise_le_mergeSort texts).and hnodup).imp ?_
  rintro s t ⟨hle, hne⟩
  exact utf8_lt_iff.2 (lt_of_le_of_ne hle hne)

end Text

end ObjectHeap
