import Mathlib
import TinyIsa.Word.Width

/-!
# Binary digits of words

* `Binary`: a row of binary digits.
* `binary_or_first`: a row of other characters has a first one that is no digit.
* `toDigits_append`, `toDigits_extract`: the digits of two bit patterns side by side;
  `toDigits_prefix_iff`: the first digits of a word.
* `ofDigits_toDigits`, `toDigits_valueOf`: digits and words of one width are the same
  thing; `ofDigits_eq_ok` is the value of a row of any length, bit by bit, and `ofDigits_eq_error`
  its first character that is no digit.
* `ofInt_toInt`: a word from its signed value; `checked_eq_ok`, `ofDigitsChecked_eq`: at a width within
  bounds only the digits can be refused.
-/

namespace TinyIsa

/-- A row of binary digits. -/
def Binary (s : List Char) : Prop := ∀ c ∈ s, isBinary c = true

instance (s : List Char) : Decidable (Binary s) := decidable_of_iff (s.all isBinary = true) List.all_eq_true

theorem binary_nil : Binary [] := fun _ h => absurd h List.not_mem_nil

theorem binary_append {s t : List Char} : Binary (s ++ t) ↔ Binary s ∧ Binary t :=
  List.forall_mem_append

theorem Binary.take {s : List Char} (h : Binary s) (n : ℕ) : Binary (s.take n) :=
  fun c hc => h c (List.mem_of_mem_take hc)

theorem Binary.drop {s : List Char} (h : Binary s) (n : ℕ) : Binary (s.drop n) :=
  fun c hc => h c (List.mem_of_mem_drop hc)

theorem Binary.not_mem {s : List Char} (h : Binary s) {c : Char} (hc : isBinary c = false) : c ∉ s := by
  intro hmem
  rw [h c hmem] at hc
  exact absurd hc (by decide)

theorem binary_replicate_zero (n : ℕ) : Binary (List.replicate n '0') := by
  intro c hc
  rw [List.eq_of_mem_replicate hc]
  decide

theorem binary_flatten {ss : List (List Char)} (h : ∀ s ∈ ss, Binary s) : Binary ss.flatten := by
  intro c hc
  obtain ⟨s, hs, hc⟩ := List.mem_flatten.1 hc
  exact h s hs c hc

theorem eq_of_isBinary {c : Char} (h : isBinary c = true) : c = '0' ∨ c = '1' := by
  simpa [isBinary] using h

/-- A digit is one of two characters, which `c == '1'` tells apart. -/
theorem digit_eq {c : Char} (h : isBinary c = true) : (if c == '1' then '1' else '0') = c := by
  rcases eq_of_isBinary h with rfl | rfl <;> decide

/-- A text is binary or has a first character that is no digit. -/
theorem binary_or_first (s : List Char) :
    Binary s ∨ ∃ before c after, s = before ++ c :: after ∧ Binary before ∧ isBinary c = false := by
  cases hd : s.dropWhile isBinary with
  | nil => exact Or.inl (List.dropWhile_eq_nil_iff.1 hd)
  | cons c after =>
    refine Or.inr ⟨s.takeWhile isBinary, c, after, ?_, fun d hmem => List.mem_takeWhile_imp hmem, ?_⟩
    · rw [← hd, List.takeWhile_append_dropWhile]
    · have h := List.head_dropWhile_not isBinary (l := s) (by simp [hd])
      simpa [hd] using h

namespace Word

theorem length_toDigits (a : Word) : a.toDigits.length = a.width := by
  simp [toDigits]

theorem binary_toDigits (a : Word) : Binary a.toDigits := by
  intro c hc
  obtain ⟨i, -, rfl⟩ := List.mem_map.1 hc
  by_cases h : a.bits.getMsbD i = true
  · rw [if_pos h]; decide
  · rw [if_neg h]; decide

theorem binary_flatMap_toDigits {α : Type} (as : List α) (f : α → Word) :
    Binary (as.flatMap fun a => (f a).toDigits) := by
  intro c hc
  obtain ⟨a, -, hc⟩ := List.mem_flatMap.1 hc
  exact binary_toDigits (f a) c hc

theorem toDigits_append {n m : ℕ} (x : BitVec n) (y : BitVec m) :
    toDigits ⟨n + m, x ++ y⟩ = toDigits ⟨n, x⟩ ++ toDigits ⟨m, y⟩ := by
  unfold toDigits
  rw [List.range_add, List.map_append, List.map_map]
  congr 1
  · refine List.map_congr_left fun i hi => ?_
    have h : i < n := List.mem_range.1 hi
    have hx : (x ++ y).getMsbD i = x.getMsbD i := by
      rw [BitVec.getMsbD_append, if_neg (by omega)]
    simp only [hx]
  · refine List.map_congr_left fun i _ => ?_
    simp [BitVec.getMsbD_append]

/-- The bits of a row of digits: its last digit has weight one. -/
theorem getLsbD_foldl (w : ℕ) (s : List Char) (v : BitVec w) (i : ℕ) :
    (s.foldl (fun v c => v.shiftConcat (c == '1')) v).getLsbD i =
      (decide (i < w) && if i < s.length then s.reverse[i]? == some '1' else v.getLsbD (i - s.length)) := by
  induction s generalizing v i with
  | nil =>
    by_cases h : i < w
    · simp [h]
    · simp [h, BitVec.getLsbD_of_ge v i (by omega)]
  | cons c s ih =>
    rw [List.foldl_cons, ih, BitVec.getLsbD_shiftConcat]
    by_cases hw : i < w
    · -- `c` is the digit of bit `s.length`
      rcases Nat.lt_trichotomy i s.length with h | h | h
      · simp [hw, h, Nat.lt_succ_of_lt h]
      · subst h
        simp [hw, Nat.lt_of_le_of_lt (Nat.zero_le _) hw]
      · have h1 : ¬ i < s.length := by omega
        have h2 : ¬ i < s.length + 1 := by omega
        have h3 : i - s.length < w := by omega
        have h4 : i - s.length ≠ 0 := by omega
        have h5 : i - s.length - 1 = i - (s.length + 1) := by omega
        simp [hw, h1, h2, h3, h4, h5]
    · simp [hw]

/-- The word of a row of binary digits. -/
def valueOf (w : ℕ) (s : List Char) : Word :=
  ⟨w, s.foldl (fun v c => v.shiftConcat (c == '1')) 0⟩

/-- A row of binary digits is read, whatever its length. -/
theorem ofDigits_eq_ok {s : List Char} (h : Binary s) (w : ℕ) : ofDigits w s = .ok (valueOf w s) := by
  have hd : s.dropWhile isBinary = [] := List.dropWhile_eq_nil_iff.2 h
  unfold ofDigits
  rw [hd, valueOf]

/-- Nothing but binary digits is read. -/
theorem binary_of_ofDigits {s : List Char} {w : ℕ} {a : Word} (h : ofDigits w s = .ok a) : Binary s := by
  unfold ofDigits at h
  cases hd : s.dropWhile isBinary with
  | nil => exact List.dropWhile_eq_nil_iff.1 hd
  | cons c t => rw [hd] at h; exact absurd h (by simp)

/-- The first character of a row that is no digit is reported. -/
theorem ofDigits_eq_error {before after : List Char} {c : Char} (hb : Binary before)
    (hc : isBinary c = false) (w : ℕ) : ofDigits w (before ++ c :: after) =
      .error ⟨String.ofList (before ++ c :: after), before.length, c⟩ := by
  have hdrop : (before ++ c :: after).dropWhile isBinary = c :: after := by
    rw [List.dropWhile_append_of_pos hb, List.dropWhile_cons_of_neg (by simp [hc])]
  have htake : (before ++ c :: after).takeWhile isBinary = before := by
    rw [List.takeWhile_append_of_pos hb, List.takeWhile_cons_of_neg (by simp [hc]), List.append_nil]
  unfold ofDigits
  rw [hdrop, htake]

theorem bit_valueOf (w : ℕ) (s : List Char) (i : ℕ) :
    (valueOf w s).bit i = (decide (i < w) && s.reverse[i]? == some '1') := by
  unfold bit valueOf
  rw [getLsbD_foldl]
  by_cases h : i < s.length
  · rw [if_pos h]
  · rw [if_neg h, List.getElem?_eq_none (by simpa using h)]
    simp

/-- The digits of a word spell it. -/
theorem ofDigits_toDigits (a : Word) : ofDigits a.width a.toDigits = .ok a := by
  rw [ofDigits_eq_ok (binary_toDigits a)]
  obtain ⟨w, x⟩ := a
  unfold valueOf
  congr 2
  apply BitVec.eq_of_getLsbD_eq
  intro i hi
  change i < w at hi
  -- the digit of bit `i` stands `i` places before the last one
  have hlen : (toDigits ⟨w, x⟩).length = w := length_toDigits ⟨w, x⟩
  have hlt : w - 1 - i < w := by omega
  have hdig : (toDigits ⟨w, x⟩)[w - 1 - i]? = some (if x.getMsbD (w - 1 - i) then '1' else '0') := by
    simp only [toDigits, List.getElem?_map, List.getElem?_range hlt, Option.map_some]
  rw [getLsbD_foldl, if_pos (by rw [hlen]; exact hi), decide_eq_true hi, Bool.true_and,
    List.getElem?_reverse (by rw [hlen]; exact hi), hlen, hdig, BitVec.getLsbD_eq_getMsbD,
    decide_eq_true hi, Bool.true_and]
  by_cases hb : x.getMsbD (w - 1 - i) = true <;> simp [hb]

theorem valueOf_toDigits (a : Word) : valueOf a.width a.toDigits = a := by
  have h := ofDigits_toDigits a
  rw [ofDigits_eq_ok (binary_toDigits a)] at h
  exact Except.ok.inj h

/-- The word of a row of digits of its width has just these digits. -/
theorem toDigits_valueOf {s : List Char} (h : Binary s) : (valueOf s.length s).toDigits = s := by
  apply List.ext_getElem (length_toDigits _)
  intro i h1 h2
  have hrev : s.reverse[s.length - 1 - i]? = some s[i] := by
    rw [List.getElem?_reverse (by omega), show s.length - 1 - (s.length - 1 - i) = i by omega,
      List.getElem?_eq_getElem h2]
  have hbit := bit_valueOf s.length s (s.length - 1 - i)
  rw [hrev, decide_eq_true (by omega), Bool.true_and] at hbit
  have hm : (valueOf s.length s).bits.getMsbD i = (s[i] == '1') := by
    rw [BitVec.getMsbD_eq_getLsbD]
    have hi : i < (valueOf s.length s).width := h2
    rw [decide_eq_true hi, Bool.true_and]
    exact hbit.trans (by simp)
  simp only [toDigits, List.getElem_map, List.getElem_range, hm]
  exact digit_eq (h _ (List.getElem_mem h2))

/-- Words of one width with the same digits are the same. -/
theorem toDigits_inj {w : ℕ} {x y : BitVec w} (h : toDigits ⟨w, x⟩ = toDigits ⟨w, y⟩) : x = y := by
  have hx : valueOf w (toDigits ⟨w, x⟩) = ⟨w, x⟩ := valueOf_toDigits ⟨w, x⟩
  have hy : valueOf w (toDigits ⟨w, y⟩) = ⟨w, y⟩ := valueOf_toDigits ⟨w, y⟩
  rw [h, hy] at hx
  simpa using hx.symm

/-- The digits of a word are those of its upper bits and of its lower ones. -/
theorem toDigits_extract {n m : ℕ} (x : BitVec (n + m)) :
    toDigits ⟨n + m, x⟩ = toDigits ⟨n, x.extractLsb' m n⟩ ++ toDigits ⟨m, x.extractLsb' 0 m⟩ := by
  rw [← toDigits_append, BitVec.extractLsb'_append_extractLsb']

/-- **The first digits of a word** are those of the number that a shift to the right leaves of it. -/
theorem toDigits_prefix_iff {n m : ℕ} (x : BitVec n) (y : BitVec (n + m)) :
    toDigits ⟨n, x⟩ <+: toDigits ⟨n + m, y⟩ ↔ y.toNat >>> m = x.toNat := by
  have hupper : (y.extractLsb' m n).toNat = y.toNat >>> m := by
    rw [BitVec.extractLsb'_toNat, Nat.shiftRight_eq_div_pow]
    exact Nat.mod_eq_of_lt (Nat.div_lt_of_lt_mul (y.isLt.trans_eq (by rw [pow_add, Nat.mul_comm])))
  have hlen : ∀ x : BitVec n, (toDigits ⟨n, x⟩).length = n := fun x => length_toDigits ⟨n, x⟩
  rw [toDigits_extract, ← hupper, List.prefix_iff_eq_take, hlen, List.take_left' (hlen _)]
  exact ⟨fun h => congrArg BitVec.toNat (toDigits_inj h).symm, fun h => by rw [BitVec.eq_of_toNat_eq h]⟩

theorem valueOf_replicate_zero (w n : ℕ) : valueOf w (List.replicate n '0') = zero w := by
  unfold valueOf zero
  congr 1
  apply BitVec.eq_of_getLsbD_eq
  intro i _
  rw [getLsbD_foldl]
  by_cases h : i < n <;> simp [h]

/-- A row of binary digits is the row of a word of its length. -/
theorem exists_eq_toDigits {s : List Char} (h : Binary s) {m : ℕ} (hm : s.length = m) :
    ∃ y : BitVec m, s = toDigits ⟨m, y⟩ := by
  subst hm
  exact ⟨(valueOf s.length s).bits, (toDigits_valueOf h).symm⟩

/-- The first digits of a word are what is left of it after a shift to the right. -/
theorem toNat_valueOf_append_shiftRight {n m : ℕ} (x : BitVec n) {s : List Char} (hs : Binary s)
    (hm : s.length = m) : (valueOf (n + m) (toDigits ⟨n, x⟩ ++ s)).toNat >>> m = x.toNat := by
  obtain ⟨y, rfl⟩ := exists_eq_toDigits hs hm
  have hval : valueOf (n + m) (toDigits ⟨n, x⟩ ++ toDigits ⟨m, y⟩) = ⟨n + m, x ++ y⟩ := by
    rw [← toDigits_append]
    exact valueOf_toDigits ⟨n + m, x ++ y⟩
  rw [hval, toNat, BitVec.toNat_append, Nat.shiftRight_or_distrib, Nat.shiftLeft_shiftRight,
    Nat.shiftRight_eq_div_pow, Nat.div_eq_of_lt y.isLt, Nat.or_zero]

/-! ### Words from outside -/

/-- A word is that of its signed value. -/
theorem ofInt_toInt (a : Word) : ofInt a.width a.toInt = a := by
  unfold ofInt toInt
  rw [BitVec.ofInt_toInt]

theorem checked_eq_ok {w : ℕ} (h : 1 ≤ w ∧ w ≤ maxWidth) (make : ℕ → Word) :
    checked w make = .ok (make w) := by
  unfold checked
  rw [if_pos h]

/-- At a width within bounds only the digits can be refused. -/
theorem ofDigitsChecked_eq {w : ℕ} (h : 1 ≤ w ∧ w ≤ maxWidth) (s : List Char) :
    ofDigitsChecked w s = (ofDigits w s).mapError .encoding := by
  unfold ofDigitsChecked
  cases ofDigits w s with
  | error e => rfl
  | ok a => exact checked_eq_ok h fun _ => a

end Word

end TinyIsa
