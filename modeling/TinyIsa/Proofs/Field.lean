import Mathlib
import TinyIsa.Field
import TinyIsa.Proofs.Word.Digits

/-!
# Fields of a row of binary digits

In a row of binary digits a byte is a digit, so that no cut ever splits a character.

* `unpack_eq_ok`: a row of binary digits is always split, and `fieldsOf` says into what.
* `fieldsOf_pack_append`: the fields that were packed come back, whatever follows them.
-/

namespace TinyIsa

namespace Text

theorem utf8Size_of_isBinary {c : Char} (h : isBinary c = true) : c.utf8Size = 1 := by
  rcases eq_of_isBinary h with rfl | rfl <;> decide

theorem takeBytes?_of_binary {s : List Char} (h : Binary s) (n : ℕ) :
    takeBytes? n s = some (s.take n) := by
  induction s generalizing n with
  | nil => cases n <;> simp [takeBytes?]
  | cons c s ih =>
    cases n with
    | zero => simp [takeBytes?]
    | succ n =>
      have hc := utf8Size_of_isBinary (h c List.mem_cons_self)
      rw [takeBytes?, hc, if_pos (by omega), Nat.add_sub_cancel,
        ih (fun d hd => h d (List.mem_cons_of_mem c hd)), Option.map_some, List.take_succ_cons]

theorem dropBytes?_of_binary {s : List Char} (h : Binary s) (n : ℕ) :
    dropBytes? n s = if n ≤ s.length then some (s.drop n) else none := by
  induction s generalizing n with
  | nil => cases n <;> simp [dropBytes?]
  | cons c s ih =>
    cases n with
    | zero => simp [dropBytes?]
    | succ n =>
      have hc := utf8Size_of_isBinary (h c List.mem_cons_self)
      rw [dropBytes?, hc, if_pos (by omega), Nat.add_sub_cancel,
        ih (fun d hd => h d (List.mem_cons_of_mem c hd))]
      simp

end Text

namespace Field

/-- The digits of a field; missing ones are zeros. -/
theorem slice_of_binary {s : List Char} (h : Binary s) (start width : ℕ) :
    slice s start width = ((s.drop start).take width).rightpad width '0' := by
  unfold slice
  rw [Text.dropBytes?_of_binary h]
  by_cases hs : start ≤ s.length
  · rw [if_pos hs, Option.bind_some, Text.takeBytes?_of_binary (h.drop start), Option.getD_some]
  · rw [if_neg hs, List.drop_eq_nil_of_le (by omega)]
    simp

/-- The fields behind the first one are those of the rest of the row. -/
theorem slices_cons {s : List Char} (h : Binary s) (w : ℕ) (ws : List ℕ) :
    slices s (w :: ws) = (w, (s.take w).rightpad w '0') :: slices (s.drop w) ws := by
  -- the same fields, with offsets that count from `k` on
  have key : ∀ (ws : List ℕ) (k n : ℕ),
      ws.zipWith (fun w start => (w, slice s start w)) (ws.scanl (· + ·) (k + n)) =
        ws.zipWith (fun w start => (w, slice (s.drop k) start w)) (ws.scanl (· + ·) n) := by
    intro ws
    induction ws with
    | nil => intro k n; simp
    | cons w ws ih =>
      intro k n
      rw [List.scanl_cons, List.scanl_cons, List.zipWith_cons_cons, List.zipWith_cons_cons,
        Nat.add_assoc, ih k (n + w), slice_of_binary h, slice_of_binary (h.drop k), List.drop_drop]
  have hs := key ws w 0
  unfold slices
  rw [List.scanl_cons, List.zipWith_cons_cons, slice_of_binary h, List.drop_zero, Nat.zero_add]
  rw [Nat.add_zero] at hs
  rw [hs]

/-- The fields of a row of binary digits. -/
def fieldsOf : List Char → List ℕ → List Word
  | _, [] => []
  | s, w :: ws => Word.valueOf w ((s.take w).rightpad w '0') :: fieldsOf (s.drop w) ws

theorem binary_rightpad {s : List Char} (h : Binary s) (n : ℕ) : Binary (s.rightpad n '0') :=
  binary_append.2 ⟨h, binary_replicate_zero _⟩

/-- **A row of binary digits is always split.** -/
theorem unpack_eq_ok {s : List Char} (h : Binary s) (ws : List ℕ) :
    unpack s ws = .ok (fieldsOf s ws) := by
  unfold unpack
  induction ws generalizing s with
  | nil => rfl
  | cons w ws ih =>
    rw [slices_cons h, List.mapM_cons, ih (h.drop w),
      Word.ofDigits_eq_ok (binary_rightpad (h.take w) w)]
    rfl

theorem fieldsOf_nil (ws : List ℕ) : fieldsOf [] ws = ws.map Word.zero := by
  induction ws with
  | nil => rfl
  | cons w ws ih =>
    rw [fieldsOf, List.drop_nil, ih, List.map_cons, List.take_nil]
    simp [List.rightpad, Word.valueOf_replicate_zero]

theorem pack_cons (f : ℤ × ℕ) (fs : List (ℤ × ℕ)) :
    pack (f :: fs) = (Word.ofInt f.2 f.1).toDigits ++ pack fs := rfl

theorem binary_pack (fs : List (ℤ × ℕ)) : Binary (pack fs) :=
  Word.binary_flatMap_toDigits fs fun f => Word.ofInt f.2 f.1

theorem length_pack (fs : List (ℤ × ℕ)) : (pack fs).length = (fs.map Prod.snd).sum := by
  induction fs with
  | nil => rfl
  | cons f fs ih =>
    rw [pack_cons, List.length_append, ih, Word.length_toDigits, List.map_cons, List.sum_cons]
    rfl

/-- The digits of a word in front of others are its field. -/
theorem fieldsOf_toDigits_append (a : Word) (s : List Char) (ws : List ℕ) :
    fieldsOf (a.toDigits ++ s) (a.width :: ws) = a :: fieldsOf s ws := by
  have hlen := Word.length_toDigits a
  rw [fieldsOf, List.take_left' hlen, List.drop_left' hlen]
  simp [List.rightpad, hlen, Word.valueOf_toDigits]

/-- **The packed fields come back**, whatever follows them. -/
theorem fieldsOf_pack_append (fs : List (ℤ × ℕ)) (s : List Char) (ws : List ℕ) :
    fieldsOf (pack fs ++ s) (fs.map Prod.snd ++ ws) =
      fs.map (fun f => Word.ofInt f.2 f.1) ++ fieldsOf s ws := by
  induction fs with
  | nil => rfl
  | cons f fs ih =>
    have h := fieldsOf_toDigits_append (Word.ofInt f.2 f.1) (pack fs ++ s) (fs.map Prod.snd ++ ws)
    rw [ih] at h
    rw [pack_cons, List.append_assoc]
    exact h

/-- The first field of a word is what is left of it after a shift to the right. -/
theorem toNat_valueOf_pack_shiftRight (v : ℤ) (w : ℕ) (fs : List (ℤ × ℕ)) {m : ℕ}
    (hm : (fs.map Prod.snd).sum = m) :
    (Word.valueOf (w + m) (pack ((v, w) :: fs))).toNat >>> m = (BitVec.ofInt w v).toNat :=
  Word.toNat_valueOf_append_shiftRight _ (binary_pack fs) ((length_pack fs).trans hm)

end Field

end TinyIsa
