import Mathlib
import TinyIsa.Text.Bytes

/-!
# Cuts of a text at a byte

An offset in bytes stands between two characters, behind the text, or within a character; in the last
case the text cannot be cut there.

* `byteLength_eq`, `byteLength_append`: lengths of texts are lengths of their bytes.
* `At`: a character of a text with its offset; `Splits`: the offsets within a character.
* `cut_cases`: the three cases of an offset.
* `takeBytes?_append`, `takeBytes?_of_lt`, `takeBytes?_of_splits`: what is in front of a cut in each of
  them; `dropBytes?_append`, `dropBytes?_of_lt`, `dropBytes?_of_splits`: what is behind it.
* `mem_between_iff`: the characters between two cuts are those with an offset between them.
-/

namespace TinyIsa.Text

theorem byteLength_eq (s : List Char) : byteLength s = (String.ofList s).utf8ByteSize := by
  induction s using List.reverseRecOn with
  | nil => rfl
  | append_singleton s c ih =>
    have hstep : byteLength (s ++ [c]) = byteLength s + c.utf8Size := by
      unfold byteLength
      rw [List.foldl_append]
      rfl
    rw [hstep, ih, String.ofList_append, String.utf8ByteSize_append]
    simp

theorem byteLength_append (s t : List Char) : byteLength (s ++ t) = byteLength s + byteLength t := by
  rw [byteLength_eq, byteLength_eq, byteLength_eq, String.ofList_append, String.utf8ByteSize_append]

theorem byteLength_cons (c : Char) (s : List Char) : byteLength (c :: s) = c.utf8Size + byteLength s := by
  have hone : byteLength [c] = c.utf8Size := Nat.zero_add _
  rw [← List.singleton_append, byteLength_append, hone]

theorem eq_nil_of_byteLength {s : List Char} (h : byteLength s = 0) : s = [] := by
  cases s with
  | nil => rfl
  | cons c s =>
    have hc := c.utf8Size_pos
    rw [byteLength_cons] at h
    omega

/-! ### Offsets -/

/-- The character `c` stands in a text behind `n` bytes. -/
def At (s : List Char) (n : ℕ) (c : Char) : Prop :=
  ∃ before after, s = before ++ c :: after ∧ byteLength before = n

/-- The offset `n` is within a character of a text. -/
def Splits (s : List Char) (n : ℕ) : Prop := ∃ k c, At s k c ∧ k < n ∧ n < k + c.utf8Size

variable {s t u v : List Char} {c : Char} {n k : ℕ}

/-- A character ends within the text. -/
theorem At.add_le (h : At s n c) : n + c.utf8Size ≤ byteLength s := by
  obtain ⟨before, after, rfl, rfl⟩ := h
  rw [byteLength_append, byteLength_cons]
  omega

theorem At.lt (h : At s n c) : n < byteLength s := by
  have hle := h.add_le
  have hc := c.utf8Size_pos
  omega

theorem At.mem (h : At s n c) : c ∈ s := by
  obtain ⟨before, after, rfl, -⟩ := h
  exact List.mem_append_right before List.mem_cons_self

theorem exists_at (h : c ∈ s) : ∃ n, At s n c := by
  obtain ⟨before, after, rfl⟩ := List.append_of_mem h
  exact ⟨_, before, after, rfl, rfl⟩

/-- A character in front of a cut stands in the text that is cut off. -/
theorem at_append_left (h : n < byteLength t) : At (t ++ u) n c ↔ At t n c := by
  constructor
  · rintro ⟨before, after, heq, rfl⟩
    rcases List.append_eq_append_iff.1 heq with ⟨m, rfl, -⟩ | ⟨m, rfl, hm⟩
    · rw [byteLength_append] at h
      omega
    · cases m with
      | nil =>
        rw [List.append_nil] at h
        omega
      | cons d m =>
        obtain ⟨rfl, -⟩ := List.cons.inj hm
        exact ⟨before, m, rfl, rfl⟩
  · rintro ⟨before, after, rfl, rfl⟩
    exact ⟨before, after ++ u, by rw [List.append_assoc, List.cons_append], rfl⟩

/-- A character behind a cut stands in the rest. -/
theorem at_append_right : At (t ++ u) (byteLength t + n) c ↔ At u n c := by
  constructor
  · rintro ⟨before, after, heq, hlen⟩
    rcases List.append_eq_append_iff.1 heq with ⟨m, rfl, rfl⟩ | ⟨m, rfl, hm⟩
    · rw [byteLength_append] at hlen
      exact ⟨m, after, rfl, by omega⟩
    · -- the character would begin in front of the cut
      rw [byteLength_append] at hlen
      obtain rfl := eq_nil_of_byteLength (s := m) (by omega)
      exact ⟨[], after, hm.symm, by change 0 = n; omega⟩
  · rintro ⟨before, after, rfl, rfl⟩
    exact ⟨t ++ before, after, by rw [List.append_assoc], byteLength_append t before⟩

theorem not_splits_append (t u : List Char) : ¬Splits (t ++ u) (byteLength t) := by
  rintro ⟨k, c, hat, hlt, hgt⟩
  have hle := ((at_append_left hlt).1 hat).add_le
  omega

/-- A character is split in the part of the text to which it belongs. -/
theorem splits_append_right : Splits (t ++ u) (byteLength t + n) ↔ Splits u n := by
  constructor
  · rintro ⟨k, c, hat, hlt, hgt⟩
    by_cases hk : k < byteLength t
    · have hle := ((at_append_left hk).1 hat).add_le
      omega
    · obtain ⟨j, rfl⟩ := Nat.exists_eq_add_of_le (not_lt.1 hk)
      exact ⟨j, c, at_append_right.1 hat, by omega, by omega⟩
  · rintro ⟨j, c, hat, hlt, hgt⟩
    exact ⟨byteLength t + j, c, at_append_right.2 hat, by omega, by omega⟩

/-- **The three cases of an offset**: between two characters, behind the text, or within a character. -/
theorem cut_cases (s : List Char) (n : ℕ) :
    (∃ t u, s = t ++ u ∧ byteLength t = n) ∨ byteLength s < n ∨ Splits s n := by
  induction s generalizing n with
  | nil =>
    rcases Nat.eq_zero_or_pos n with rfl | hn
    · exact Or.inl ⟨[], [], rfl, rfl⟩
    · exact Or.inr (Or.inl hn)
  | cons c s ih =>
    have hcons : byteLength [c] = c.utf8Size := Nat.zero_add _
    rcases Nat.lt_or_ge n c.utf8Size with hlt | hge
    · rcases Nat.eq_zero_or_pos n with rfl | hn
      · exact Or.inl ⟨[], c :: s, rfl, rfl⟩
      · exact Or.inr (Or.inr ⟨0, c, ⟨[], s, rfl, rfl⟩, hn, by omega⟩)
    · obtain ⟨j, rfl⟩ := Nat.exists_eq_add_of_le hge
      rcases ih j with ⟨t, u, rfl, rfl⟩ | hlt | hsplit
      · exact Or.inl ⟨c :: t, u, rfl, byteLength_cons c t⟩
      · exact Or.inr (Or.inl (by rw [byteLength_cons]; omega))
      · have h := splits_append_right (t := [c]).2 hsplit
        rw [hcons] at h
        exact Or.inr (Or.inr h)

/-! ### Cuts -/

theorem takeBytes?_cons (c : Char) (s : List Char) (h : 0 < n) : takeBytes? n (c :: s) =
    if c.utf8Size ≤ n then (takeBytes? (n - c.utf8Size) s).map (c :: ·) else none := by
  obtain ⟨m, rfl⟩ := Nat.exists_eq_succ_of_ne_zero h.ne'
  rfl

theorem dropBytes?_cons (c : Char) (s : List Char) (h : 0 < n) : dropBytes? n (c :: s) =
    if c.utf8Size ≤ n then dropBytes? (n - c.utf8Size) s else none := by
  obtain ⟨m, rfl⟩ := Nat.exists_eq_succ_of_ne_zero h.ne'
  rfl

/-- What is in front of a cut further back begins with what is in front of it. -/
theorem takeBytes?_append_add (t u : List Char) (n : ℕ) :
    takeBytes? (byteLength t + n) (t ++ u) = (takeBytes? n u).map (t ++ ·) := by
  induction t with
  | nil =>
    change takeBytes? (0 + n) u = _
    rw [Nat.zero_add]
    simp
  | cons c t ih =>
    have hc := c.utf8Size_pos
    rw [byteLength_cons, List.cons_append, takeBytes?_cons c _ (by omega), if_pos (by omega),
      show c.utf8Size + byteLength t + n - c.utf8Size = byteLength t + n by omega, ih, Option.map_map]
    rfl

theorem dropBytes?_append_add (t u : List Char) (n : ℕ) :
    dropBytes? (byteLength t + n) (t ++ u) = dropBytes? n u := by
  induction t with
  | nil =>
    change dropBytes? (0 + n) u = _
    rw [Nat.zero_add]
  | cons c t ih =>
    have hc := c.utf8Size_pos
    rw [byteLength_cons, List.cons_append, dropBytes?_cons c _ (by omega), if_pos (by omega),
      show c.utf8Size + byteLength t + n - c.utf8Size = byteLength t + n by omega, ih]

theorem takeBytes?_append (t u : List Char) : takeBytes? (byteLength t) (t ++ u) = some t := by
  have h := takeBytes?_append_add t u 0
  rw [Nat.add_zero, takeBytes?, Option.map_some, List.append_nil] at h
  exact h

theorem dropBytes?_append (t u : List Char) : dropBytes? (byteLength t) (t ++ u) = some u := by
  have h := dropBytes?_append_add t u 0
  rw [Nat.add_zero, dropBytes?] at h
  exact h

theorem takeBytes?_of_lt (h : byteLength s < n) : takeBytes? n s = some s := by
  obtain ⟨j, rfl⟩ := Nat.exists_eq_add_of_lt h
  have hs := takeBytes?_append_add s [] (j + 1)
  rw [List.append_nil, takeBytes?, Option.map_some, List.append_nil] at hs
  exact hs

theorem dropBytes?_of_lt (h : byteLength s < n) : dropBytes? n s = none := by
  obtain ⟨j, rfl⟩ := Nat.exists_eq_add_of_lt h
  have hs := dropBytes?_append_add s [] (j + 1)
  rw [List.append_nil, dropBytes?] at hs
  exact hs

theorem takeBytes?_of_splits (h : Splits s n) : takeBytes? n s = none := by
  obtain ⟨k, c, ⟨before, after, rfl, rfl⟩, hlt, hgt⟩ := h
  obtain ⟨j, rfl⟩ := Nat.exists_eq_add_of_le hlt.le
  rw [takeBytes?_append_add, takeBytes?_cons c _ (by omega), if_neg (by omega)]
  rfl

theorem dropBytes?_of_splits (h : Splits s n) : dropBytes? n s = none := by
  obtain ⟨k, c, ⟨before, after, rfl, rfl⟩, hlt, hgt⟩ := h
  obtain ⟨j, rfl⟩ := Nat.exists_eq_add_of_le hlt.le
  rw [dropBytes?_append_add, dropBytes?_cons c _ (by omega), if_neg (by omega)]

/-- **The characters between two cuts** are those whose offset is between them. -/
theorem mem_between_iff (t u v : List Char) (c : Char) : c ∈ u ↔
    ∃ n, At (t ++ (u ++ v)) n c ∧ byteLength t ≤ n ∧ n < byteLength t + byteLength u := by
  constructor
  · intro h
    obtain ⟨j, hj⟩ := exists_at h
    have hlt := hj.lt
    exact ⟨byteLength t + j, at_append_right.2 ((at_append_left hlt).2 hj), by omega, by omega⟩
  · rintro ⟨n, hat, hle, hlt⟩
    obtain ⟨j, rfl⟩ := Nat.exists_eq_add_of_le hle
    exact ((at_append_left (by omega)).1 (at_append_right.1 hat)).mem

end TinyIsa.Text
