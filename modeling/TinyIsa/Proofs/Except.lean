import Mathlib

/-!
# Computations that may be refused

A composite computation succeeds exactly when its parts do.

* `bind_eq_ok`, `map_eq_ok`, `mapError_eq_ok`: one part after another.
* `forM_eq_ok`, `mapM_eq_ok`, `exists_mapM_eq_ok`: the parts of a list, element by element.
-/

namespace TinyIsa

variable {ε ε' α β γ : Type}

theorem bind_eq_ok {x : Except ε α} {f : α → Except ε β} {b : β} :
    (x >>= f) = .ok b ↔ ∃ a, x = .ok a ∧ f a = .ok b := by
  cases x <;> simp [bind, Except.bind]

theorem bind_eq_error {x : Except ε α} {f : α → Except ε β} {e : ε} :
    (x >>= f) = .error e ↔ x = .error e ∨ ∃ a, x = .ok a ∧ f a = .error e := by
  cases x <;> simp [bind, Except.bind]

theorem map_eq_ok {x : Except ε α} {f : α → β} {b : β} :
    (f <$> x) = .ok b ↔ ∃ a, x = .ok a ∧ f a = b := by
  cases x <;> simp [Functor.map, Except.map]

theorem mapError_eq_ok {x : Except ε α} {f : ε → ε'} {a : α} :
    x.mapError f = .ok a ↔ x = .ok a := by
  cases x <;> simp [Except.mapError]

theorem mapError_eq_error {x : Except ε α} {f : ε → ε'} {e : ε'} :
    x.mapError f = .error e ↔ ∃ d, x = .error d ∧ f d = e := by
  cases x <;> simp [Except.mapError]

theorem discard_bind_eq_ok {x : Except ε α} {y : Except ε β} {b : β} :
    (discard x >>= fun _ => y) = .ok b ↔ (∃ a, x = .ok a) ∧ y = .ok b := by
  cases x <;> simp [discard, Functor.mapConst, Except.map, bind, Except.bind]

theorem discard_bind_eq_error {x : Except ε α} {y : Except ε β} {e : ε} :
    (discard x >>= fun _ => y) = .error e ↔ x = .error e ∨ (∃ a, x = .ok a) ∧ y = .error e := by
  cases x <;> simp [discard, Functor.mapConst, Except.map, bind, Except.bind]

theorem discard_eq_ok {x : Except ε α} : discard x = .ok () ↔ ∃ a, x = .ok a := by
  cases x <;> simp [discard, Functor.mapConst, Except.map]

/-- A list of checks succeeds when each of them does. -/
theorem forM_eq_ok {f : α → Except ε Unit} {l : List α} : l.forM f = .ok () ↔ ∀ a ∈ l, f a = .ok () := by
  induction l with
  | nil => simp [List.forM, pure, Except.pure]
  | cons a l ih =>
    have hcons : (a :: l).forM f = f a >>= fun _ => l.forM f := rfl
    rw [hcons, bind_eq_ok, List.forall_mem_cons, ih]
    exact ⟨fun ⟨_, ha, hl⟩ => ⟨ha, hl⟩, fun ⟨ha, hl⟩ => ⟨(), ha, hl⟩⟩

/-- A list of computations succeeds when each of them does. -/
theorem mapM_eq_ok {f : α → Except ε β} :
    ∀ {l : List α} {l' : List β}, l.mapM f = .ok l' ↔ List.Forall₂ (fun a b => f a = .ok b) l l' := by
  intro l
  induction l with
  | nil => intro l'; cases l' <;> simp [pure, Except.pure]
  | cons a l ih =>
    intro l'
    rw [List.mapM_cons, bind_eq_ok, List.forall₂_cons_left_iff]
    constructor
    · rintro ⟨b, hb, h⟩
      obtain ⟨bs, hbs, h⟩ := bind_eq_ok.1 h
      cases h
      exact ⟨b, bs, hb, ih.1 hbs, rfl⟩
    · rintro ⟨b, bs, hb, hbs, rfl⟩
      exact ⟨b, hb, bind_eq_ok.2 ⟨bs, ih.2 hbs, rfl⟩⟩

theorem exists_mapM_eq_ok {f : α → Except ε β} {l : List α} (h : ∀ a ∈ l, ∃ b, f a = .ok b) :
    ∃ l', l.mapM f = .ok l' := by
  induction l with
  | nil => exact ⟨[], rfl⟩
  | cons a l ih =>
    obtain ⟨b, hb⟩ := h a List.mem_cons_self
    obtain ⟨bs, hbs⟩ := ih fun a' ha' => h a' (List.mem_cons_of_mem a ha')
    refine ⟨b :: bs, ?_⟩
    rw [List.mapM_cons]
    exact bind_eq_ok.2 ⟨b, hb, bind_eq_ok.2 ⟨bs, hbs, rfl⟩⟩

/-- A result of a list of computations is the result of one of them. -/
theorem exists_of_mem_mapM {f : α → Except ε β} {l : List α} {l' : List β} (h : l.mapM f = .ok l') {b : β}
    (hb : b ∈ l') : ∃ a ∈ l, f a = .ok b := by
  obtain ⟨hlen, hget⟩ := List.forall₂_iff_get.1 (mapM_eq_ok.1 h)
  obtain ⟨k, hk, rfl⟩ := List.getElem_of_mem hb
  exact ⟨l[k], List.getElem_mem (hlen ▸ hk), hget k (hlen ▸ hk) hk⟩

/-- Computations that succeed under a condition with a known result. -/
theorem mapM_eq_ok_iff {f : α → Except ε β} {P : α → Prop} {g : α → β} {l : List α}
    (h : ∀ a ∈ l, ∀ b, f a = .ok b ↔ P a ∧ b = g a) {l' : List β} :
    l.mapM f = .ok l' ↔ (∀ a ∈ l, P a) ∧ l' = l.map g := by
  induction l generalizing l' with
  | nil => simp [pure, Except.pure, eq_comm]
  | cons a l ih =>
    have hl := fun b hb => h b (List.mem_cons_of_mem a hb)
    rw [List.mapM_cons, bind_eq_ok]
    simp only [bind_eq_ok, h a List.mem_cons_self, ih hl, List.forall_mem_cons, List.map_cons]
    constructor
    · rintro ⟨b, ⟨ha, rfl⟩, bs, ⟨hbs, rfl⟩, h⟩
      exact ⟨⟨ha, hbs⟩, (Except.ok.inj h).symm⟩
    · rintro ⟨⟨ha, hbs⟩, rfl⟩
      exact ⟨_, ⟨ha, rfl⟩, _, ⟨hbs, rfl⟩, rfl⟩

/-- The results of a list of computations stand at the places of their arguments. -/
theorem getElem?_of_mapM {f : α → Except ε β} {l : List α} {l' : List β} (h : l.mapM f = .ok l') (i : ℕ) :
    (l[i]? = none ∧ l'[i]? = none) ∨ ∃ a b, l[i]? = some a ∧ l'[i]? = some b ∧ f a = .ok b := by
  obtain ⟨hlen, hget⟩ := List.forall₂_iff_get.1 (mapM_eq_ok.1 h)
  rcases Nat.lt_or_ge i l.length with hi | hi
  · exact Or.inr ⟨l[i], l'[i], List.getElem?_eq_getElem hi, List.getElem?_eq_getElem (hlen ▸ hi),
      hget i hi (hlen ▸ hi)⟩
  · exact Or.inl ⟨List.getElem?_eq_none hi, List.getElem?_eq_none (hlen ▸ hi)⟩

end TinyIsa
