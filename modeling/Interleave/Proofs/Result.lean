/-! # Computations that can fail

Small facts on results in `Except`, and on going through a list with a computation that can fail. -/

namespace Interleave

variable {ε α β : Type}

@[simp] theorem ok_bind (a : α) (f : α → Except ε β) : (Except.ok a >>= f) = f a := rfl

@[simp] theorem error_bind (e : ε) (f : α → Except ε β) : (Except.error e >>= f) = .error e := rfl

/-- A result of two computations is one of the second on a result of the first. -/
theorem exists_of_bind {x : Except ε α} {f : α → Except ε β} {b : β} (h : x >>= f = .ok b) :
    ∃ a, x = .ok a ∧ f a = .ok b := by
  cases x with
  | error e => cases h
  | ok a => exact ⟨a, rfl, h⟩

/-- An error of two computations is one of the first, or of the second on a result of the first. -/
theorem error_of_bind {x : Except ε α} {f : α → Except ε β} {e : ε} (h : x >>= f = .error e) :
    x = .error e ∨ ∃ a, x = .ok a ∧ f a = .error e := by
  cases x with
  | error e' =>
      cases h
      exact .inl rfl
  | ok a => exact .inr ⟨a, rfl, h⟩

theorem exists_of_any {x : Except ε α} {p : α → Bool} (h : x.toOption.any p = true) :
    ∃ a, x = .ok a ∧ p a = true := by
  cases x with
  | error why => cases h
  | ok a => exact ⟨a, rfl, h⟩

@[simp] theorem pure_eq_ok (a : α) : (pure a : Except ε α) = .ok a := rfl

theorem mapM_eq_ok {f : α → Except ε β} {l : List α} {l' : List β} :
    l.mapM f = .ok l' ↔
      (∀ a ∈ l, ∃ b, f a = .ok b) ∧ l' = l.filterMap fun a => (f a).toOption := by
  induction l generalizing l' with
  | nil => simp [eq_comm]
  | cons a l ih =>
      rw [List.mapM_cons]
      cases hb : f a with
      | error e => simp [hb]
      | ok b =>
          cases hl : l.mapM f with
          | error e =>
              have hnone : ¬ ∀ a ∈ l, ∃ b, f a = .ok b := by
                intro h
                have := ih.mpr ⟨h, rfl⟩
                rw [hl] at this
                cases this
              simp [hb, hnone]
          | ok bs =>
              obtain ⟨hall, rfl⟩ := ih.mp hl
              have hcons : ((a :: l).filterMap fun a => (f a).toOption) =
                  b :: l.filterMap fun a => (f a).toOption := by
                rw [List.filterMap_cons, hb]
                rfl
              rw [hcons]
              constructor
              · intro h
                exact ⟨by simpa [hb] using hall, by simpa [eq_comm] using h⟩
              · rintro ⟨-, rfl⟩
                rfl

/-- The error of a result. -/
def errorOf? : Except ε α → Option ε
  | .error e => some e
  | .ok _ => none

@[simp] theorem errorOf?_error (e : ε) : errorOf? (.error e : Except ε α) = some e := rfl

@[simp] theorem errorOf?_ok (a : α) : errorOf? (.ok a : Except ε α) = none := rfl

theorem errorOf?_congr {x : Except ε α} {y : Except ε β}
    (h : ∀ e, x = .error e ↔ y = .error e) : errorOf? x = errorOf? y := by
  cases x with
  | error e => rw [(h e).mp rfl, errorOf?_error, errorOf?_error]
  | ok a =>
      cases y with
      | error e => cases (h e).mpr rfl
      | ok b => rfl

theorem mapM_eq_error {f : α → Except ε β} {l : List α} {e : ε} :
    l.mapM f = .error e ↔ (l.filterMap fun a => errorOf? (f a)).head? = some e := by
  induction l with
  | nil => simp
  | cons a l ih =>
      rw [List.mapM_cons, List.filterMap_cons]
      cases f a with
      | error e' => simp
      | ok b =>
          rw [errorOf?_ok, ok_bind, ← ih]
          cases l.mapM f with
          | error e' => simp
          | ok bs => simp

theorem length_mapM {f : α → Except ε β} {l : List α} {l' : List β} (h : l.mapM f = .ok l') :
    l'.length = l.length := by
  obtain ⟨hok, rfl⟩ := mapM_eq_ok.mp h
  rw [List.length_filterMap_eq_countP, List.countP_eq_length]
  intro a ha
  obtain ⟨b, hb⟩ := hok a ha
  rw [hb]
  rfl

theorem exists_of_mem_mapM {f : α → Except ε β} {l : List α} {l' : List β} {b : β}
    (h : l.mapM f = .ok l') (hb : b ∈ l') : ∃ a ∈ l, f a = .ok b := by
  obtain ⟨-, rfl⟩ := mapM_eq_ok.mp h
  obtain ⟨a, ha, hab⟩ := List.mem_filterMap.mp hb
  refine ⟨a, ha, ?_⟩
  cases hfa : f a with
  | error e => simp [hfa, Except.toOption] at hab
  | ok b' => simpa [hfa, Except.toOption] using hab

theorem ok_of_forM {f : α → Except ε PUnit} {l : List α} (h : l.forM f = .ok ()) :
    ∀ a ∈ l, f a = .ok () := by
  induction l with
  | nil => simp
  | cons a l ih =>
      have hcons : (a :: l).forM f = f a >>= fun _ => l.forM f := rfl
      rw [hcons] at h
      obtain ⟨u, ha, h⟩ := exists_of_bind h
      exact List.forall_mem_cons.mpr ⟨ha, ih h⟩

theorem foldlM_invariant {P : β → Prop} {f : β → α → Except ε β} {l : List α} {b b' : β}
    (hf : ∀ b a b', P b → f b a = .ok b' → P b') (h : l.foldlM f b = .ok b') (hb : P b) : P b' := by
  induction l generalizing b with
  | nil =>
      cases h
      exact hb
  | cons a l ih =>
      rw [List.foldlM_cons] at h
      obtain ⟨b₁, hfa, h⟩ := exists_of_bind h
      exact ih h (hf b a b₁ hb hfa)

end Interleave
