import Mathlib
import TinyIsa.Proofs.Field.Packing
import TinyIsa.Proofs.Text.Cut

/-!
# Fields of any text

The ends of the fields of a text count bytes, whatever its characters are. A field whose end is within
a character has no bytes and reads as zero; any other field is read if its characters are digits.

* `offset`: the bytes in front of a field; `Torn`: a field with an end within a character.
* `getElem?_slices`: the piece of the text that belongs to a field.
* `slice_of_splits`, `exists_slice`: the piece of a torn field and of another one.
* `exists_unpack_iff`: **which texts are unpacked**; `getElem?_of_torn`: a torn field is zero.
-/

namespace TinyIsa.Field

open Text

variable {s : List Char} {ws : List ℕ} {c : Char} {start w n i : ℕ}

/-! ### The ends of fields -/

/-- The number of bytes in front of a field. -/
def offset (ws : List ℕ) (i : ℕ) : ℕ := (ws.take i).sum

/-- A field is torn when one of its ends is within a character of the text. -/
def Torn (s : List Char) (ws : List ℕ) (i : ℕ) : Prop := Splits s (offset ws i) ∨ Splits s (offset ws (i + 1))

theorem offset_succ (h : ws[i]? = some w) : offset ws (i + 1) = offset ws i + w := by
  unfold offset
  rw [List.take_add_one, h, Option.toList_some, List.sum_append, List.sum_singleton]

theorem offset_mono (ws : List ℕ) {i j : ℕ} (h : i ≤ j) : offset ws i ≤ offset ws j := by
  obtain ⟨k, rfl⟩ := Nat.exists_eq_add_of_le h
  unfold offset
  rw [List.take_add, List.sum_append]
  exact Nat.le_add_right _ _

/-- Each byte within the fields belongs to one of them. -/
theorem exists_field (h : n < ws.sum) : ∃ i w, ws[i]? = some w ∧ offset ws i ≤ n ∧ n < offset ws i + w := by
  induction ws generalizing n with
  | nil => exact absurd h (Nat.not_lt_zero n)
  | cons w ws ih =>
    rcases Nat.lt_or_ge n w with hlt | hge
    · exact ⟨0, w, rfl, Nat.zero_le n, by change n < 0 + w; omega⟩
    · rw [List.sum_cons] at h
      obtain ⟨i, v, hi, hle, hlt⟩ := ih (n := n - w) (by omega)
      have hsum : offset (w :: ws) (i + 1) = w + offset ws i := by
        unfold offset
        rw [List.take_succ_cons, List.sum_cons]
      exact ⟨i + 1, v, hi, by omega, by omega⟩

/-- No byte belongs to two fields. -/
theorem field_unique {j : ℕ} (hi : offset ws i ≤ n) (hi' : n < offset ws (i + 1)) (hj : offset ws j ≤ n)
    (hj' : n < offset ws (j + 1)) : i = j := by
  rcases Nat.lt_trichotomy i j with h | h | h
  · have hle := offset_mono ws (show i + 1 ≤ j from h)
    omega
  · exact h
  · have hle := offset_mono ws (show j + 1 ≤ i from h)
    omega

theorem offset_lt_sum (h : ws[i]? = some w) (hn : n < offset ws i + w) : n < ws.sum := by
  have hi : i + 1 ≤ ws.length := (List.getElem?_eq_some_iff.1 h).1
  have hle := offset_mono ws hi
  have hall : offset ws ws.length = ws.sum := congrArg List.sum List.take_length
  have hsucc := offset_succ h
  omega

/-! ### The pieces of fields -/

/-- **The piece of the text that belongs to a field** begins behind the widths in front of it. -/
theorem getElem?_slices (s : List Char) (ws : List ℕ) (i : ℕ) :
    (slices s ws)[i]? = ws[i]?.map fun w => (w, slice s (offset ws i) w) := by
  unfold slices offset
  rw [List.getElem?_zipWith, List.getElem?_scanl]
  cases h : ws[i]? with
  | none => rfl
  | some w =>
    have hi := (List.getElem?_eq_some_iff.1 h).1
    rw [if_pos hi.le, List.sum_eq_foldl]
    rfl

/-- Nothing belongs to a torn field, so that all of its digits are missing. -/
theorem slice_of_splits (h : Splits s start ∨ Splits s (start + w)) :
    slice s start w = List.replicate w '0' := by
  have hnone : (dropBytes? start s).bind (takeBytes? w) = none := by
    rcases cut_cases s start with ⟨t, u, rfl, rfl⟩ | hlt | hsplit
    · rcases h with h | h
      · exact absurd h (not_splits_append t u)
      · rw [dropBytes?_append, Option.bind_some, takeBytes?_of_splits (splits_append_right.1 h)]
    · rw [dropBytes?_of_lt hlt, Option.bind_none]
    · rw [dropBytes?_of_splits hsplit, Option.bind_none]
  unfold slice
  rw [hnone, Option.getD_none, List.rightpad, List.length_nil, Nat.sub_zero, List.nil_append]

/-- **The characters of a field** that is not torn are those that begin in it. -/
theorem exists_slice (hstart : ¬Splits s start) (hstop : ¬Splits s (start + w)) :
    ∃ u : List Char, slice s start w = u.rightpad w '0' ∧
      ∀ c, c ∈ u ↔ ∃ n, At s n c ∧ start ≤ n ∧ n < start + w := by
  unfold slice
  rcases cut_cases s start with ⟨t, u, rfl, rfl⟩ | hlt | hsplit
  · rw [dropBytes?_append, Option.bind_some]
    rcases cut_cases u w with ⟨u, v, rfl, rfl⟩ | hlt | hsplit
    · rw [takeBytes?_append]
      exact ⟨u, rfl, mem_between_iff t u v⟩
    · -- the text ends within the field
      rw [takeBytes?_of_lt hlt]
      refine ⟨u, rfl, fun c => ⟨fun hc => ?_, fun ⟨n, hat, hle, _⟩ => ?_⟩⟩
      · obtain ⟨j, hj⟩ := exists_at hc
        have hjlt := hj.lt
        exact ⟨byteLength t + j, at_append_right.2 hj, by omega, by omega⟩
      · obtain ⟨j, rfl⟩ := Nat.exists_eq_add_of_le hle
        exact (at_append_right.1 hat).mem
    · exact absurd (splits_append_right.2 hsplit) hstop
  · -- the text ends in front of the field
    rw [dropBytes?_of_lt hlt, Option.bind_none]
    refine ⟨[], rfl, fun c => ⟨fun hc => absurd hc List.not_mem_nil, fun ⟨n, hat, hle, _⟩ => ?_⟩⟩
    have hn := hat.lt
    omega
  · exact absurd hsplit hstart

theorem binary_rightpad_iff {u : List Char} : Binary (u.rightpad n '0') ↔ Binary u :=
  ⟨fun h => (binary_append.1 h).1, fun h => binary_rightpad h n⟩

/-- The piece of a field consists of digits when the field is torn or all its characters are digits. -/
theorem binary_slice_iff : Binary (slice s start w) ↔ (Splits s start ∨ Splits s (start + w)) ∨
    ∀ n c, At s n c → start ≤ n → n < start + w → isBinary c = true := by
  by_cases htorn : Splits s start ∨ Splits s (start + w)
  · rw [slice_of_splits htorn]
    exact ⟨fun _ => Or.inl htorn, fun _ => binary_replicate_zero w⟩
  · obtain ⟨u, hu, hmem⟩ := exists_slice (fun h => htorn (Or.inl h)) fun h => htorn (Or.inr h)
    rw [hu, binary_rightpad_iff]
    constructor
    · intro h
      exact Or.inr fun n c hat hle hlt => h c ((hmem c).2 ⟨n, hat, hle, hlt⟩)
    · rintro (h | h)
      · exact absurd h htorn
      · intro c hc
        obtain ⟨n, hat, hle, hlt⟩ := (hmem c).1 hc
        exact h n c hat hle hlt

/-! ### Unpacking -/

theorem exists_unpack_iff_slices : (∃ words, unpack s ws = .ok words) ↔
    ∀ i w, ws[i]? = some w → Binary (slice s (offset ws i) w) := by
  unfold unpack
  constructor
  · rintro ⟨words, hwords⟩ i w hi
    have hget := getElem?_of_mapM hwords i
    rw [getElem?_slices, hi, Option.map_some] at hget
    obtain ⟨hnone, -⟩ | ⟨a, b, ha, -, hb⟩ := hget
    · exact absurd hnone (by simp)
    · obtain rfl := Option.some.inj ha
      exact Word.binary_of_ofDigits hb
  · intro h
    refine exists_mapM_eq_ok fun f hf => ?_
    obtain ⟨i, hi⟩ := List.mem_iff_getElem?.1 hf
    rw [getElem?_slices, Option.map_eq_some_iff] at hi
    obtain ⟨w, hw, rfl⟩ := hi
    exact ⟨_, Word.ofDigits_eq_ok (h i w hw) w⟩

/-- **Which texts are unpacked**: those in which every character that begins within the fields is a
digit, unless the field in which it begins is torn. -/
theorem exists_unpack_iff : (∃ words, unpack s ws = .ok words) ↔ ∀ n c, At s n c → n < ws.sum →
    isBinary c = true ∨ ∃ i < ws.length, offset ws i ≤ n ∧ n < offset ws (i + 1) ∧ Torn s ws i := by
  rw [exists_unpack_iff_slices]
  constructor
  · intro h n c hat hn
    obtain ⟨i, w, hi, hle, hlt⟩ := exists_field hn
    have hsucc := offset_succ hi
    rcases binary_slice_iff.1 (h i w hi) with htorn | hdigits
    · exact Or.inr ⟨i, (List.getElem?_eq_some_iff.1 hi).1, hle, by omega, by unfold Torn; rwa [hsucc]⟩
    · exact Or.inl (hdigits n c hat hle hlt)
  · intro h i w hi
    have hsucc := offset_succ hi
    refine binary_slice_iff.2 (or_iff_not_imp_left.2 fun htorn n c hat hle hlt => ?_)
    rcases h n c hat (offset_lt_sum hi hlt) with hc | ⟨j, -, hj, hj', hjtorn⟩
    · exact hc
    · -- the torn field would be the one that is not torn
      obtain rfl := field_unique hle (by omega) hj hj'
      unfold Torn at hjtorn
      rw [hsucc] at hjtorn
      exact absurd hjtorn htorn

/-- **A torn field is zero**, whatever its digits are. -/
theorem getElem?_of_torn {words : List Word} (h : unpack s ws = .ok words) (hi : ws[i]? = some w)
    (htorn : Torn s ws i) : words[i]? = some (Word.zero w) := by
  have hget := getElem?_of_mapM h i
  unfold Torn at htorn
  rw [offset_succ hi] at htorn
  rw [getElem?_slices, hi, Option.map_some, slice_of_splits htorn] at hget
  obtain ⟨hnone, -⟩ | ⟨a, b, ha, hb, hab⟩ := hget
  · exact absurd hnone (by simp)
  · obtain rfl := Option.some.inj ha
    rw [Word.ofDigits_eq_ok (binary_replicate_zero w), Word.valueOf_replicate_zero] at hab
    rw [hb, ← Except.ok.inj hab]

end TinyIsa.Field
