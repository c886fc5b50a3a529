import Mathlib
import TinyIsa.Proofs.Except
import TinyIsa.Proofs.Field

/-!
# Packing and unpacking

The fields of a row of digits are cut at the sums of their widths. Packing the fields again gives the
row back; a row that is too short is read as if zeros stood behind it, and what is behind the last
field is not read.

* `packChecked_eq_ok`, `unpackChecked_eq_unpack`: widths within bounds are never refused.
* `unpack_pack`: the words that were packed are unpacked.
* `pack_fieldsOf`: the signed values of the fields of a row are packed to the row.
* `fieldsOf_append_zeros`: zeros behind a row make no difference; `fieldsOf_append`: nothing that
  stands behind the last field does.
* `fields_roundTrip`: **packing and unpacking undo each other** at every list of widths.
-/

namespace TinyIsa

/-- A row that is completed, after some of the filling was added by hand. -/
theorem rightpad_append_replicate {α : Type} (s : List α) (c : α) {k n : ℕ} (h : s.length + k ≤ n) :
    (s ++ List.replicate k c).rightpad n c = s.rightpad n c := by
  have hk : k + (n - (s.length + k)) = n - s.length := by omega
  unfold List.rightpad
  rw [List.append_assoc, List.length_append, List.length_replicate, List.replicate_append_replicate, hk]

/-- The beginning of a row with filling behind it is completed like the beginning of the row. -/
theorem rightpad_take_append_replicate {α : Type} (s : List α) (c : α) (k n : ℕ) :
    ((s ++ List.replicate k c).take n).rightpad n c = (s.take n).rightpad n c := by
  rw [List.take_append, List.take_replicate]
  apply rightpad_append_replicate
  rw [List.length_take]
  omega

namespace Field

variable {ws : List ℕ} {s : List Char}

/-! ### Widths from outside -/

theorem packChecked_eq_ok {fields : List (ℤ × ℕ)} (h : ∀ f ∈ fields, 1 ≤ f.2 ∧ f.2 ≤ maxWidth) :
    packChecked fields = .ok (pack fields) := by
  unfold packChecked
  refine map_eq_ok.2 ⟨fields.map fun f => (Word.ofInt f.2 f.1).toDigits, ?_, List.flatMap_def.symm⟩
  rw [mapM_eq_ok, List.forall₂_map_right_iff, List.forall₂_same]
  intro f hf
  rw [Word.checked_eq_ok (h f hf)]
  rfl

theorem mem_of_mem_slices {f : ℕ × List Char} (h : f ∈ slices s ws) : f.1 ∈ ws := by
  unfold slices at h
  rw [← List.map_uncurry_zip_eq_zipWith] at h
  obtain ⟨⟨w, start⟩, hmem, rfl⟩ := List.mem_map.1 h
  exact (List.of_mem_zip hmem).1

theorem unpackChecked_eq_unpack (h : ∀ w ∈ ws, 1 ≤ w ∧ w ≤ maxWidth) (s : List Char) :
    unpackChecked s ws = (unpack s ws).mapError .encoding := by
  have hall : ∀ f ∈ slices s ws, Word.ofDigitsChecked f.1 f.2 = (Word.ofDigits f.1 f.2).mapError .encoding :=
    fun f hf => Word.ofDigitsChecked_eq (h f.1 (mem_of_mem_slices hf)) f.2
  unfold unpackChecked unpack
  generalize slices s ws = fs at hall
  induction fs with
  | nil => rfl
  | cons f fs ih =>
    rw [List.mapM_cons, List.mapM_cons, hall f List.mem_cons_self,
      ih fun g hg => hall g (List.mem_cons_of_mem f hg)]
    cases Word.ofDigits f.1 f.2 with
    | error e => rfl
    | ok a =>
      cases fs.mapM fun g => Word.ofDigits g.1 g.2 with
      | error e => rfl
      | ok as => rfl

/-- A row of digits is always split at widths within bounds. -/
theorem unpackChecked_eq_ok (hw : ∀ w ∈ ws, 1 ≤ w ∧ w ≤ maxWidth) (h : Binary s) :
    unpackChecked s ws = .ok (fieldsOf s ws) := by
  rw [unpackChecked_eq_unpack hw, unpack_eq_ok h]
  rfl

/-! ### There and back -/

theorem map_width_fieldsOf (s : List Char) (ws : List ℕ) : (fieldsOf s ws).map Word.width = ws := by
  induction ws generalizing s with
  | nil => rfl
  | cons w ws ih => rw [fieldsOf, List.map_cons, ih]; rfl

/-- **The words that were packed are unpacked**: the values, as far as their widths hold them. -/
theorem unpack_pack (fields : List (ℤ × ℕ)) :
    unpack (pack fields) (fields.map Prod.snd) = .ok (fields.map fun f => Word.ofInt f.2 f.1) := by
  have h := fieldsOf_pack_append fields [] []
  rw [List.append_nil, List.append_nil, fieldsOf, List.append_nil] at h
  rw [unpack_eq_ok (binary_pack fields), h]

/-- **The fields of a row are packed to the row.** -/
theorem pack_fieldsOf (h : Binary s) (hlen : s.length = ws.sum) :
    pack ((fieldsOf s ws).map fun a => (a.toInt, a.width)) = s := by
  induction ws generalizing s with
  | nil => exact (List.length_eq_zero_iff.1 hlen).symm
  | cons w ws ih =>
    rw [List.sum_cons] at hlen
    have htake : (s.take w).length = w := by rw [List.length_take]; omega
    have hpad : (s.take w).rightpad w '0' = s.take w := by simp [List.rightpad, htake]
    have hdrop : (s.drop w).length = ws.sum := by rw [List.length_drop]; omega
    have hvalue := Word.toDigits_valueOf (h.take w)
    rw [htake] at hvalue
    rw [fieldsOf, List.map_cons, pack_cons, Word.ofInt_toInt, hpad, hvalue, ih (h.drop w) hdrop,
      List.take_append_drop]

/-! ### Rows of other lengths -/

/-- **Missing digits are zeros**: zeros behind a row are read as if they were not there. -/
theorem fieldsOf_append_zeros (s : List Char) (k : ℕ) (ws : List ℕ) :
    fieldsOf (s ++ List.replicate k '0') ws = fieldsOf s ws := by
  induction ws generalizing s k with
  | nil => rfl
  | cons w ws ih =>
    rw [fieldsOf, fieldsOf, rightpad_take_append_replicate, List.drop_append, List.drop_replicate, ih]

/-- **The surplus is not read**: nothing behind the last field makes a difference. -/
theorem fieldsOf_append (t : List Char) (h : ws.sum ≤ s.length) : fieldsOf (s ++ t) ws = fieldsOf s ws := by
  induction ws generalizing s with
  | nil => rfl
  | cons w ws ih =>
    rw [List.sum_cons] at h
    have hdrop : ws.sum ≤ (s.drop w).length := by rw [List.length_drop]; omega
    rw [fieldsOf, fieldsOf, List.take_append_of_le_length (by omega), List.drop_append_of_le_length (by omega),
      ih hdrop]

theorem fieldsOf_take (h : ws.sum ≤ s.length) : fieldsOf (s.take ws.sum) ws = fieldsOf s ws := by
  have hlen : ws.sum ≤ (s.take ws.sum).length := by rw [List.length_take]; omega
  have hsplit := fieldsOf_append (s.drop ws.sum) hlen
  rw [List.take_append_drop] at hsplit
  exact hsplit.symm

/-- **Packing and unpacking undo each other.** At widths from 1 to 64, and for any values: the fields
that are packed are unpacked to the words of these values at these widths. A row of binary digits is
always unpacked, to words of the given widths; if it has as many digits as these fields, their signed
values are packed to the row. Zeros behind a row, which complete a shorter one, make no difference, and
neither does the surplus of a longer one. -/
theorem fields_roundTrip {fields : List (ℤ × ℕ)} (hfields : ∀ f ∈ fields, 1 ≤ f.2 ∧ f.2 ≤ maxWidth)
    (hws : ∀ w ∈ ws, 1 ≤ w ∧ w ≤ maxWidth) (hs : Binary s) :
    (∃ row, packChecked fields = .ok row ∧
      unpackChecked row (fields.map Prod.snd) = .ok (fields.map fun f => Word.ofInt f.2 f.1)) ∧
    (∃ words, unpackChecked s ws = .ok words ∧ words.map Word.width = ws ∧
      (s.length = ws.sum → packChecked (words.map fun a => (a.toInt, a.width)) = .ok s)) ∧
    (∀ k, unpackChecked s ws = unpackChecked (s ++ List.replicate k '0') ws) ∧
    (ws.sum ≤ s.length → unpackChecked s ws = unpackChecked (s.take ws.sum) ws) := by
  refine ⟨⟨pack fields, packChecked_eq_ok hfields, ?_⟩,
    ⟨fieldsOf s ws, unpackChecked_eq_ok hws hs, map_width_fieldsOf s ws, fun hlen => ?_⟩, fun k => ?_, fun hlen => ?_⟩
  · have hwidths : ∀ w ∈ fields.map Prod.snd, 1 ≤ w ∧ w ≤ maxWidth := by
      intro w hw
      obtain ⟨f, hf, rfl⟩ := List.mem_map.1 hw
      exact hfields f hf
    rw [unpackChecked_eq_unpack hwidths, unpack_pack]
    rfl
  · have hwidths : ∀ f ∈ (fieldsOf s ws).map fun a => (a.toInt, a.width), 1 ≤ f.2 ∧ f.2 ≤ maxWidth := by
      intro f hf
      obtain ⟨a, ha, rfl⟩ := List.mem_map.1 hf
      have hmem : a.width ∈ (fieldsOf s ws).map Word.width := List.mem_map_of_mem ha
      rw [map_width_fieldsOf] at hmem
      exact hws a.width hmem
    rw [packChecked_eq_ok hwidths, pack_fieldsOf hs hlen]
  · have hzeros : Binary (s ++ List.replicate k '0') := binary_append.2 ⟨hs, binary_replicate_zero k⟩
    rw [unpackChecked_eq_ok hws hs, unpackChecked_eq_ok hws hzeros, fieldsOf_append_zeros]
  · rw [unpackChecked_eq_ok hws hs, unpackChecked_eq_ok hws (hs.take _), fieldsOf_take hlen]

/-- A value that does not fit its field, the widest and the narrowest field, and a row that ends within
the second of three fields. -/
theorem fields_roundTrip_cut : ∃ (fields : List (ℤ × ℕ)) (ws : List ℕ) (s : List Char),
    fields = [(300, 3), (-1, 64), (-2 ^ 63, 1)] ∧ ws = [3, 64, 2] ∧ s = ['1', '0', '1', '1', '0'] ∧
    (∀ f ∈ fields, 1 ≤ f.2 ∧ f.2 ≤ maxWidth) ∧ (∀ w ∈ ws, 1 ≤ w ∧ w ≤ maxWidth) ∧ Binary s ∧
    unpackChecked s ws = .ok [⟨3, 5⟩, ⟨64, 2 ^ 63⟩, ⟨2, 0⟩] ∧
    (∃ row, packChecked fields = .ok row ∧
      unpackChecked row (fields.map Prod.snd) = .ok [⟨3, 4⟩, ⟨64, 2 ^ 64 - 1⟩, ⟨1, 0⟩]) ∧
    unpackChecked s ws = unpackChecked (s ++ List.replicate 7 '0') ws := by
  have hfields : ∀ f ∈ [((300 : ℤ), 3), (-1, 64), (-2 ^ 63, 1)], 1 ≤ f.2 ∧ f.2 ≤ maxWidth := by decide
  have hws : ∀ w ∈ [3, 64, 2], 1 ≤ w ∧ w ≤ maxWidth := by decide
  have hs : Binary ['1', '0', '1', '1', '0'] := by simp [Binary, isBinary]
  have hwords : ([((300 : ℤ), 3), (-1, 64), (-2 ^ 63, 1)].map fun f => Word.ofInt f.2 f.1) =
      [⟨3, 4⟩, ⟨64, 2 ^ 64 - 1⟩, ⟨1, 0⟩] := by decide +kernel
  have hwords' : fieldsOf ['1', '0', '1', '1', '0'] [3, 64, 2] = [⟨3, 5⟩, ⟨64, 2 ^ 63⟩, ⟨2, 0⟩] := by
    decide +kernel
  have hunpack := unpackChecked_eq_ok hws hs
  rw [hwords'] at hunpack
  obtain ⟨hpack, -, hzeros, -⟩ := fields_roundTrip hfields hws hs
  rw [hwords] at hpack
  exact ⟨_, _, _, rfl, rfl, rfl, hfields, hws, hs, hunpack, hpack, hzeros 7⟩

end Field

end TinyIsa
