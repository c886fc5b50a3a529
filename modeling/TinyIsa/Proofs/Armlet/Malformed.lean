import Mathlib
import TinyIsa.Proofs.Completion
import TinyIsa.Proofs.Field.Torn

/-!
# Characters that are no digits

A field is cut out of a text by its bytes. A character that is no digit is refused in a field to which
it belongs as a whole; a field that it goes beyond is read as zero, with everything else in it. In an
instruction only the end of the second word can be such a place.

* `at_leading`: the characters in front of a cut; `at_of_completed`, `splits_completed`: those of the
  completed text.
* `Armlet.exists_decode_iff`: **which texts are decoded**, and to what operation.
* `Armlet.getLast?_of_splits`: an immediate value that a character goes beyond is zero.
* `malformed_digits`: **what is read of a text with other characters**.
-/

namespace TinyIsa

open Text Instruction

variable {s : List Char} {c : Char} {k n : ℕ}

/-! ### The completed text -/

/-- What is in front of a cut is all of the text when it does not end at the cut. -/
theorem exists_leading (n : ℕ) (s : List Char) :
    ∃ t u, s = t ++ u ∧ leading n s = t ∧ (byteLength t = n ∨ u = []) := by
  unfold leading
  rcases cut_cases s n with ⟨t, u, rfl, rfl⟩ | hlt | hsplit
  · exact ⟨t, u, rfl, by rw [takeBytes?_append]; rfl, Or.inl rfl⟩
  · exact ⟨s, [], (List.append_nil s).symm, by rw [takeBytes?_of_lt hlt]; rfl, Or.inr rfl⟩
  · exact ⟨s, [], (List.append_nil s).symm, by rw [takeBytes?_of_splits hsplit]; rfl, Or.inr rfl⟩

/-- A character that begins in front of a cut stands in what is in front of it. -/
theorem at_leading (h : At s k c) (hk : k < n) : At (leading n s) k c := by
  obtain ⟨t, u, rfl, ht, hend⟩ := exists_leading n s
  have hlt : k < byteLength t := by
    rcases hend with hlen | rfl
    · omega
    · rw [List.append_nil] at h
      exact h.lt
  rw [ht]
  exact (at_append_left hlt).1 h

/-- No digit is split. -/
theorem not_splits_of_digits (h : ∀ k c, At s k c → k < n → isBinary c = true) : ¬Splits s n := by
  rintro ⟨k, c, hat, hlt, hgt⟩
  have hsize := utf8Size_of_isBinary (h k c hat hlt)
  omega

/-- The characters in front of a cut are digits when all that begin there are. -/
theorem binary_leading (h : ∀ k c, At s k c → k < n → isBinary c = true) : Binary (leading n s) := by
  unfold leading
  rcases cut_cases s n with ⟨t, u, rfl, rfl⟩ | hlt | hsplit
  · rw [takeBytes?_append]
    intro c hc
    obtain ⟨k, hk⟩ := exists_at hc
    exact h k c ((at_append_left hk.lt).2 hk) hk.lt
  · rw [takeBytes?_of_lt hlt]
    intro c hc
    obtain ⟨k, hk⟩ := exists_at hc
    exact h k c hk (hk.lt.trans hlt)
  · exact absurd hsplit (not_splits_of_digits h)

/-- The characters of a text that begin in front of the cut stand in the completed text. -/
theorem Text.At.completed (h : At s k c) (hk : k < n) : At (completed n s) k c := by
  have hat := at_leading h hk
  exact (at_append_left hat.lt).2 hat

/-- The completed text has no other characters than these and digits. -/
theorem at_of_completed (h : At (completed n s) k c) : At s k c ∨ isBinary c = true := by
  obtain ⟨t, u, rfl, ht, -⟩ := exists_leading n s
  unfold completed at h
  rw [ht, List.rightpad] at h
  by_cases hk : k < byteLength t
  · exact Or.inl ((at_append_left hk).2 ((at_append_left hk).1 h))
  · obtain ⟨j, rfl⟩ := Nat.exists_eq_add_of_le (not_lt.1 hk)
    exact Or.inr (binary_replicate_zero _ c (at_append_right.1 h).mem)

/-- The completed text is split in the same places. -/
theorem splits_completed (hk : k ≤ n) : Splits (completed n s) k ↔ Splits s k := by
  constructor
  · rintro ⟨j, c, hat, hlt, hgt⟩
    rcases at_of_completed hat with h | h
    · exact ⟨j, c, h, hlt, hgt⟩
    · have hsize := utf8Size_of_isBinary h
      omega
  · rintro ⟨j, c, hat, hlt, hgt⟩
    exact ⟨j, c, hat.completed (by omega), hlt, hgt⟩

namespace Armlet

variable {op : Op} {args : List String}

/-! ### Instructions -/

theorem decode_eq_ok {digits : List Char} : decode op digits = .ok args ↔
    ∃ fields, Field.unpack digits fieldWidths = .ok fields ∧
      args = ((fields.drop 1).take op.layout.registers).map (registerName ·.toNat) ++
        (if op.layout.immediate then fields.drop 5 else []).map (Text.decimal ·.toInt) := by
  unfold decode
  simp only [bind_eq_ok, mapError_eq_ok]
  constructor
  · rintro ⟨fields, hfields, h⟩
    exact ⟨fields, hfields, (Except.ok.inj h).symm⟩
  · rintro ⟨fields, hfields, rfl⟩
    exact ⟨fields, hfields, rfl⟩

theorem words_eq (op : Op) : op.words = if op.layout.immediate then 2 else 1 := by
  unfold Op.words
  cases op.layout.immediate <;> rfl

/-- A byte of the second word belongs to the last field. -/
theorem eq_five_of_offset {i : ℕ} (hi : i < fieldWidths.length) (hn : wordSize ≤ n)
    (hlt : n < Field.offset fieldWidths (i + 1)) : i = 5 := by
  have hfive : Field.offset fieldWidths 5 = wordSize := rfl
  have hlen : fieldWidths.length = 6 := rfl
  by_contra hne
  have hle := Field.offset_mono fieldWidths (show i + 1 ≤ 5 by omega)
  omega

/-- The fields of one word of digits are read. -/
theorem exists_unpack_word (hword : ∀ k c, At s k c → k < wordSize → isBinary c = true) :
    ∃ fields, Field.unpack (completed wordSize s) fieldWidths = .ok fields :=
  ⟨_, Field.unpack_eq_ok (Field.binary_rightpad (binary_leading hword) wordSize) fieldWidths⟩

/-- The fields of two words, the first of which has digits only, are read when the second has digits only or
a character goes beyond its end. -/
theorem exists_unpack_words_iff (hword : ∀ k c, At s k c → k < wordSize → isBinary c = true) :
    (∃ fields, Field.unpack (completed (2 * wordSize) s) fieldWidths = .ok fields) ↔
      ∀ n c, At s n c → n < 2 * wordSize →
        isBinary c = true ∨ (wordSize ≤ n ∧ Splits s (2 * wordSize)) := by
  rw [Field.exists_unpack_iff]
  constructor
  · intro h n c hat hn
    by_cases hn1 : n < wordSize
    · exact Or.inl (hword n c hat hn1)
    · rcases h n c (hat.completed hn) hn with hc | ⟨i, hi, -, hlt, htorn⟩
      · exact Or.inl hc
      · obtain rfl := eq_five_of_offset hi (by omega) hlt
        rcases htorn with hstart | hstop
        · exact absurd ((splits_completed (k := wordSize) (by omega)).1 hstart) (not_splits_of_digits hword)
        · exact Or.inr ⟨by omega, (splits_completed le_rfl).1 hstop⟩
  · intro h n c hat hn
    rcases at_of_completed hat with hat | hc
    · rcases h n c hat hn with hc | ⟨hle, hsplit⟩
      · exact Or.inl hc
      · exact Or.inr ⟨5, by decide, hle, hn, Or.inr ((splits_completed le_rfl).2 hsplit)⟩
    · exact Or.inl hc

/-- **Which texts are decoded**: those whose first word consists of digits and, if the operation has a
second word, whose second word does, unless a character goes beyond its end. -/
theorem exists_decode_iff : (∃ args, ofCode s = .ok (ofOp op args)) ↔
    lookup (Word.valueOf wordSize (leading wordSize s)) = .ok op ∧
      ∀ n c, At s n c → n < op.words * wordSize →
        isBinary c = true ∨ (wordSize ≤ n ∧ Splits s (2 * wordSize)) := by
  constructor
  · rintro ⟨args, h⟩
    obtain ⟨first, op', args', hfirst, hop, hargs, hi⟩ := ofCode_eq_ok.1 h
    obtain ⟨rfl, rfl⟩ := Body.operation.inj (congrArg Instruction.body hi)
    have hbinary := Word.binary_of_ofDigits hfirst
    obtain rfl := Except.ok.inj ((Word.ofDigits_eq_ok hbinary wordSize).symm.trans hfirst)
    have hword : ∀ k c, At s k c → k < wordSize → isBinary c = true := fun k c hat hk =>
      hbinary c (at_leading hat hk).mem
    obtain ⟨fields, hfields, -⟩ := decode_eq_ok.1 hargs
    change Field.unpack (completed (op.words * wordSize) s) fieldWidths = _ at hfields
    refine ⟨hop, fun n c hat hn => ?_⟩
    by_cases hi : op.layout.immediate = true
    · rw [words_eq, if_pos hi] at hfields hn
      exact (exists_unpack_words_iff hword).1 ⟨fields, hfields⟩ n c hat hn
    · rw [words_eq, if_neg hi, Nat.one_mul] at hn
      exact Or.inl (hword n c hat hn)
  · rintro ⟨hop, hchars⟩
    have hpos : wordSize ≤ op.words * wordSize := Nat.le_mul_of_pos_left _ (by unfold Op.words; omega)
    have hword : ∀ k c, At s k c → k < wordSize → isBinary c = true := fun k c hat hk =>
      (hchars k c hat (by omega)).resolve_right fun h => by omega
    obtain ⟨fields, hfields⟩ : ∃ fields,
        Field.unpack (completed (op.words * wordSize) s) fieldWidths = .ok fields := by
      by_cases hi : op.layout.immediate = true
      · rw [words_eq, if_pos hi] at hchars ⊢
        exact (exists_unpack_words_iff hword).2 hchars
      · rw [words_eq, if_neg hi, Nat.one_mul]
        exact exists_unpack_word hword
    exact ⟨_, ofCode_eq_ok.2 ⟨_, op, _, Word.ofDigits_eq_ok (binary_leading hword) wordSize, hop,
      decode_eq_ok.2 ⟨fields, hfields, rfl⟩, rfl⟩⟩

/-- **An immediate value that a character goes beyond is zero.** -/
theorem getLast?_of_splits (h : ofCode s = .ok (ofOp op args)) (hi : op.layout.immediate = true)
    (hsplit : Splits s (2 * wordSize)) : args.getLast? = some "0" := by
  obtain ⟨-, op', args', -, -, hargs, heq⟩ := ofCode_eq_ok.1 h
  obtain ⟨rfl, rfl⟩ := Body.operation.inj (congrArg Instruction.body heq)
  obtain ⟨fields, hfields, rfl⟩ := decode_eq_ok.1 hargs
  change Field.unpack (completed (op.words * wordSize) s) fieldWidths = _ at hfields
  rw [words_eq, if_pos hi] at hfields
  have htorn : Field.Torn (completed (2 * wordSize) s) fieldWidths 5 :=
    Or.inr ((splits_completed le_rfl).2 hsplit)
  have hlast : fields[5]? = some (Word.zero wordSize) := Field.getElem?_of_torn hfields rfl htorn
  have hlen : fields.length = 6 := (mapM_eq_ok.1 hfields).length_eq.symm
  have hdrop : fields.drop 5 = [Word.zero wordSize] := by
    rw [List.drop_eq_getElem_cons (by omega), List.drop_eq_nil_of_le (by omega)]
    exact congrArg (fun w => [w]) (Option.some.inj ((List.getElem?_eq_getElem _).symm.trans hlast))
  rw [if_pos hi, hdrop, List.map_singleton, List.getLast?_append_of_ne_nil _ (List.cons_ne_nil _ _)]
  rfl

end Armlet

/-- **What is read of a text with other characters than digits.** At widths from 1 to 64, a text is
unpacked exactly if every character that begins within the fields is a digit, or begins in a field that
is torn: one with an end within a character, this one or another one. Of a torn field no digit is read: it is zero.
On Armlet, a text is decoded to an operation that its first word selects exactly if every character
that begins within the words of the operation is a digit, or begins in a second word whose end is within
a character; the immediate value is then zero. -/
theorem malformed_digits {ws : List ℕ} (hws : ∀ w ∈ ws, 1 ≤ w ∧ w ≤ maxWidth) (s : List Char) :
    ((∃ words, Field.unpackChecked s ws = .ok words) ↔ ∀ n c, At s n c → n < ws.sum →
      isBinary c = true ∨ ∃ i < ws.length,
        Field.offset ws i ≤ n ∧ n < Field.offset ws (i + 1) ∧ Field.Torn s ws i) ∧
    (∀ words i w, Field.unpackChecked s ws = .ok words → ws[i]? = some w → Field.Torn s ws i →
      words[i]? = some (Word.zero w)) ∧
    (∀ op : Armlet.Op, (∃ args, ofCode s = .ok (ofOp op args)) ↔
      lookup (Word.valueOf Armlet.wordSize (leading Armlet.wordSize s)) = .ok op ∧
        ∀ n c, At s n c → n < op.words * Armlet.wordSize →
          isBinary c = true ∨ (Armlet.wordSize ≤ n ∧ Splits s (2 * Armlet.wordSize))) ∧
    (∀ (op : Armlet.Op) (args : List String), ofCode s = .ok (ofOp op args) → op.words = 2 →
      Splits s (2 * Armlet.wordSize) → args.getLast? = some "0") := by
  have hunpack : ∀ words, Field.unpackChecked s ws = .ok words ↔ Field.unpack s ws = .ok words := by
    intro words
    rw [Field.unpackChecked_eq_unpack hws, mapError_eq_ok]
  refine ⟨?_, fun words i w h hi htorn => ?_, fun op => Armlet.exists_decode_iff, fun op args h hwords hsplit => ?_⟩
  · simp only [hunpack]
    exact Field.exists_unpack_iff
  · exact Field.getElem?_of_torn ((hunpack words).1 h) hi htorn
  · have himmediate : op.layout.immediate = true := by
      by_contra hi
      rw [Armlet.words_eq, if_neg hi] at hwords
      omega
    exact Armlet.getLast?_of_splits h himmediate hsplit

/-- The last character of two words goes beyond their end: a field and the immediate value are zero,
although all their digits are ones. -/
theorem malformed_digits_torn : ∃ s : List Char,
    s = "0101000010000000".toList ++ List.replicate 15 '1' ++ ['é'] ∧
    At s 31 'é' ∧ isBinary 'é' = false ∧ Splits s (2 * Armlet.wordSize) ∧
    (∃ words, Field.unpackChecked s [16, 16] = .ok words ∧ words[1]? = some (Word.zero 16)) ∧
    ∃ args, ofCode s = .ok (ofOp (Armlet.Op.mov .immediate) args) ∧ args.getLast? = some "0" := by
  have hat : At ("0101000010000000".toList ++ List.replicate 15 '1' ++ ['é']) 31 'é' := ⟨_, [], rfl, by decide⟩
  have hsplit : Splits ("0101000010000000".toList ++ List.replicate 15 '1' ++ ['é']) (2 * Armlet.wordSize) :=
    ⟨31, 'é', hat, by decide, by decide⟩
  have hunpack : Field.unpackChecked ("0101000010000000".toList ++ List.replicate 15 '1' ++ ['é']) [16, 16] =
      .ok [⟨16, 0x5080⟩, ⟨16, 0⟩] := by cbv
  have hcode : ofCode ("0101000010000000".toList ++ List.replicate 15 '1' ++ ['é']) =
      .ok (ofOp (Armlet.Op.mov .immediate) ["$1", "0"]) := by cbv
  have hws : ∀ w ∈ [16, 16], 1 ≤ w ∧ w ≤ maxWidth := by decide
  obtain ⟨-, hzero, -, hlast⟩ := malformed_digits hws
    ("0101000010000000".toList ++ List.replicate 15 '1' ++ ['é'])
  exact ⟨_, rfl, hat, by decide, hsplit, ⟨_, hunpack, hzero _ 1 16 hunpack rfl (Or.inr hsplit)⟩,
    _, hcode, hlast _ _ hcode rfl hsplit⟩

end TinyIsa
